import Mathlib.Data.List.Nodup
import SsaCompiler.Proofs.Lowering.MethodShape
import SsaCompiler.Proofs.Parser.Declarations
import SsaCompiler.Proofs.Typing.Plain

/-!
# Plain units

A unit of package main with nothing but plain methods goes through the phases of compilation as
follows. Every method gets a function under a name of its own, then every method is resolved, and at
last the body of every method is lowered into its function. Here is what a single method does in a
phase.
-/

namespace SsaCompiler

open List
open Core (Setting)
open Ssa (FuncRef Module)

/-- Whether a declaration belongs to a program of package main that computes with truth values and
integers only. -/
def Decl.isPlain : Decl → Bool
  | .package _ name => name == Package.mainName
  | .modifierBlock .. | .modifierList .. => true
  | .method m => m.isPlain
  | _ => false

namespace SourceUnit

/-- The methods of a unit outside of classes. -/
def methods (u : SourceUnit) : List Method :=
  u.decls.filterMap Decl.method?

/-- The methods of a unit, those of its classes included. -/
def allMethods (u : SourceUnit) : List Method :=
  u.decls.flatMap Decl.methods

/-- The methods with the number of the unit. -/
def origins (u : SourceUnit) : List MethodDef :=
  u.methods.map (MethodDef.mk u.number)

/-- A program of package main that computes with truth values and integers only. Its methods are
different nodes. -/
structure IsPlain (u : SourceUnit) : Prop where
  decls : ∀ d ∈ u.decls, d.isPlain
  nodes : (u.allMethods.map fun m => m.mark.id).Nodup

variable {u : SourceUnit}

/-- The methods of a unit that was read are different nodes. -/
theorem IsPlain.of_read {number : Nat} {file : String} {source : List Char}
    (hread : SourceUnit.read number file source = .ok u) (h : ∀ d ∈ u.decls, d.isPlain) :
    u.IsPlain :=
  ⟨h, SourceUnit.nodup_methodIds_of_read hread⟩

section

variable (h : u.IsPlain)

include h

theorem IsPlain.classDecl_not_mem {c : ClassDecl} : Decl.classDecl c ∉ u.decls :=
  fun hc => Bool.false_ne_true (h.decls _ hc)

theorem IsPlain.allMethods_eq : u.allMethods = u.methods := by
  unfold allMethods methods
  rw [filterMap_eq_flatMap_toList]
  refine flatMap_congr fun d hd => ?_
  have hplain := h.decls d hd
  cases d <;> simp_all [Decl.methods, Decl.method?, Decl.isPlain]

theorem IsPlain.nodup : (u.methods.map fun m => m.mark.id).Nodup :=
  h.allMethods_eq ▸ h.nodes

theorem IsPlain.method (hm : m ∈ u.methods) : m.isPlain := by
  obtain ⟨d, hd, hdm⟩ := mem_filterMap.mp hm
  have hplain := h.decls d hd
  cases d <;> simp_all [Decl.method?, Decl.isPlain]

theorem IsPlain.isExternal_eq (hm : m ∈ u.methods) :
    Typing.isExternal m = false := by
  have hplain := h.method hm
  simp only [Method.isPlain, Bool.and_eq_true, Bool.not_eq_true'] at hplain
  exact hplain.1.2

theorem IsPlain.eq_of_same (hf : f ∈ u.origins) (hg : g ∈ u.origins)
    (hsame : f.same g) : f = g := by
  obtain ⟨m, hm, rfl⟩ := mem_map.mp hf
  obtain ⟨m', hm', rfl⟩ := mem_map.mp hg
  have hid : m.mark.id = m'.mark.id := by simpa [MethodDef.same] using hsame
  rw [inj_on_of_nodup_map h.nodup hm hm' hid]

end

theorem same_self (f : MethodDef) : f.same f := by
  simp [MethodDef.same]

theorem IsPlain.id_ne (h : u.IsPlain) (hms : u.methods = done ++ m :: rest) :
    ∀ m' ∈ done, m'.mark.id ≠ m.mark.id := by
  have hnodes := h.nodup
  rw [hms, map_append, nodup_append] at hnodes
  exact fun m' hm' => hnodes.2.2 _ (mem_map_of_mem hm') _ mem_cons_self

end SourceUnit

namespace Package

variable {p : Package} {key key' : String} {f g : MethodDef}

theorem overloads_insertMethod (os : List Overloads) :
    (((insertMethod key f os).find? fun o => o.key == key').map Overloads.methods).getD [] =
      ((os.find? fun o => o.key == key').map Overloads.methods).getD [] ++
        if key = key' then [f] else [] := by
  induction os with
  | nil => by_cases hk : key = key' <;> simp [insertMethod, hk]
  | cons o os ih =>
    by_cases ho : o.key = key
    · by_cases hk : key = key' <;> simp [insertMethod, ho, hk]
    · by_cases hk : o.key = key'
      · subst hk
        simp [insertMethod, ho, Ne.symm ho]
      · simpa [insertMethod, ho, hk] using ih

/-- A method that is defined is added to the overloads of its name. -/
theorem overloads_defineMethod (h : p.defines key f = false) (key' : String) :
    (p.defineMethod key f).overloads key' = p.overloads key' ++ if key = key' then [f] else [] := by
  rw [defineMethod, h]
  exact overloads_insertMethod p.methods

theorem mem_overloads_defineMethod (h : g ∈ (p.defineMethod key f).overloads key') :
    (g = f ∧ key' = key) ∨ g ∈ p.overloads key' := by
  cases hdef : p.defines key f with
  | true => exact .inr (by rwa [defineMethod, hdef] at h)
  | false =>
    rw [overloads_defineMethod hdef, mem_append] at h
    refine h.symm.imp_left fun h => ?_
    split at h
    next hk => exact ⟨mem_singleton.mp h, hk.symm⟩
    next => cases h

/-- A method without overloads of its name gives its name to its function. -/
theorem linkName_of_single (hp : p.name = mainName) (h : ∀ g ∈ p.overloads key, f.same g) :
    p.linkName key f = key := by
  unfold linkName
  rw [hp]
  cases hos : p.overloads key with
  | nil => simp
  | cons g gs =>
    have hg := h g (hos ▸ mem_cons_self)
    simp [List.findIdx?_cons, hg]

theorem class?_defineClass_of_some {name : String} {c : ClassDef} (h : p.class? name = some c)
    (n : Nat) (d : ClassDecl) : (p.defineClass n d).1.class? name = some c := by
  unfold defineClass
  split
  · exact h
  · exact (List.find?_append ..).trans (by rw [show p.classes.find? _ = _ from h, Option.some_or])

/-- A class that is declared is found, or another one of its name. -/
theorem class?_defineClass (p : Package) (n : Nat) (d : ClassDecl) : ∃ c,
    (p.defineClass n d).1.class? d.name = some c ∧
      (p.defineClass n d).2 = (c.unit == n && c.decl.mark.id == d.mark.id) := by
  unfold defineClass
  split
  next old hold => exact ⟨old, hold, rfl⟩
  next hnone =>
    refine ⟨.ofDecl n d, (List.find?_append ..).trans ?_, by simp [ClassDef.ofDecl]⟩
    rw [show p.classes.find? _ = _ from hnone]
    simp [ClassDef.ofDecl, ClassDef.name]

end Package

namespace SourceUnit

variable {u : SourceUnit} {done : List Method} {env : Env} {l : LoweringState}

/-! ## Functions -/

/-- Some of the methods have been given their functions. -/
structure Collected (u : SourceUnit) (done : List Method) (env : Env) (l : LoweringState) :
    Prop where
  name : env.own.name = Package.mainName
  imported : env.imported = []
  used : env.used = []
  overloads : ∀ key, ∀ f ∈ env.own.overloads key, ∃ m ∈ done, f = ⟨u.number, m⟩ ∧ m.name = key
  between : Lowering.Between l
  bodies : ∀ f < l.module.funcs.size, (l.module.func f).entry.isSome
  noPhi : ∀ v, (l.module.value v).op ≠ .phi
  functions : l.functions.map MethodFunc.method = done.map (MethodDef.mk u.number)
  unwritten : ∀ d ∈ l.functions, ∃ e, l.module.Unwritten d.func e
  apart : (l.functions.map MethodFunc.func).Nodup
  named : ∀ d ∈ l.functions,
    (∀ m ∈ u.methods, m.name = d.method.method.name → m = d.method.method) →
    (l.module.func d.func).name = d.method.method.name

theorem collected_start (u : SourceUnit) (hname : env.own.name = Package.mainName)
    (himported : env.imported = []) (hused : env.used = []) (hmethods : env.own.methods = []) :
    Collected u [] env { builder := { module := { name := u.moduleName } } } where
  name := hname
  imported := himported
  used := hused
  overloads := fun key f hf => absurd hf (by simp [Package.overloads, hmethods])
  between := ⟨⟨fun b hb => absurd hb (Nat.not_lt_zero b), fun b hb => absurd hb (Nat.not_lt_zero b)⟩,
    forall_mem_nil _, fun id x hx => absurd hx (by simp),
    fun id id' x x' hx => absurd hx (by simp)⟩
  bodies := fun f hf => absurd hf (Nat.not_lt_zero f)
  noPhi := fun v => Module.Grows.noPhi_of_size_le (Nat.zero_le v)
  functions := rfl
  unwritten := forall_mem_nil _
  apart := .nil
  named := forall_mem_nil _

/-- Plain methods see nothing but each other. -/
theorem Collected.isPlain (h : Collected u u.methods env l) (hu : u.IsPlain) :
    env.IsPlain (· ∈ u.origins) := by
  refine ⟨h.imported, h.used, fun key f hf => ?_⟩
  obtain ⟨m, hm, rfl, hname⟩ := h.overloads key f hf
  have hplain := hu.method hm
  simp only [Method.isPlain, Bool.and_eq_true] at hplain
  exact ⟨hname, mem_map_of_mem hm, hplain.1.1⟩

theorem Collected.find?_eq_none (h : Collected u done env l)
    (hm : ∀ m' ∈ done, m'.mark.id ≠ m.mark.id) :
    l.functions.find? (fun d => d.method.same ⟨u.number, m⟩) = none := by
  rw [List.find?_eq_none]
  intro d hd hsame
  have hd : d.method ∈ done.map (MethodDef.mk u.number) :=
    h.functions ▸ mem_map_of_mem hd
  obtain ⟨m', hm', hd⟩ := mem_map.mp hd
  rw [← hd] at hsame
  exact hm m' hm' (by simpa [MethodDef.same] using hsame)

theorem Collected.defines_eq_false (h : Collected u done env l)
    (hm : ∀ m' ∈ done, m'.mark.id ≠ m.mark.id) : env.own.defines m.name ⟨u.number, m⟩ = false := by
  unfold Package.defines
  rw [any_eq_false]
  intro f hf hsame
  obtain ⟨m', hm', rfl, -⟩ := h.overloads _ f hf
  have hid : m.mark.id = m'.mark.id := by simpa [MethodDef.same] using hsame
  exact hm m' hm' hid.symm

theorem Collected.defineMethod (h : Collected u done env l) (hu : u.IsPlain) {m : Method}
    {rest : List Method} {g : FuncRef} {t : LoweringState} (hms : u.methods = done ++ m :: rest)
    (hr : Runs (Lowering.function .own m.name ⟨u.number, m⟩)
      { env with own := env.own.defineMethod m.name ⟨u.number, m⟩ } l g t) :
    Collected u (done ++ [m]) { env with own := env.own.defineMethod m.name ⟨u.number, m⟩ } t := by
  have hdone : ∀ m' ∈ done ++ [m], m' ∈ u.methods := fun m' hm' => by
    rw [hms, append_cons done]
    exact mem_append_left _ hm'
  have hmem := hdone m (mem_append_right _ (mem_singleton_self m))
  obtain ⟨between, bodies, grows, functions, fresh, named, unwritten, others⟩ :=
    h.between.function (h.find?_eq_none (hu.id_ne hms)) (hu.isExternal_eq hmem) hr h.bodies
  have hname : (env.own.defineMethod m.name ⟨u.number, m⟩).name = Package.mainName := by
    unfold Package.defineMethod
    split
    · exact h.name
    · exact h.name
  have hoverloads : ∀ key, ∀ f ∈ (env.own.defineMethod m.name ⟨u.number, m⟩).overloads key,
      ∃ m' ∈ done ++ [m], f = ⟨u.number, m'⟩ ∧ m'.name = key := by
    intro key f hf
    rcases Package.mem_overloads_defineMethod hf with ⟨rfl, rfl⟩ | hf
    · exact ⟨m, mem_append_right _ (mem_singleton_self m), rfl, rfl⟩
    · obtain ⟨m', hm', hrest⟩ := h.overloads key f hf
      exact ⟨m', mem_append_left _ hm', hrest⟩
  refine ⟨hname, h.imported, h.used, hoverloads, between, bodies, fun v => ?_, ?_, fun d hd => ?_, ?_,
    fun d hd hsingle => ?_⟩
  · rcases Nat.lt_or_ge v l.module.values.size with hlt | hge
    · rw [(grows.value v hlt).op]
      exact h.noPhi v
    · exact grows.noPhi v hge
  · rw [functions, map_append, map_append, h.functions]
    rfl
  · rw [functions] at hd
    rcases mem_append.mp hd with hd | hd
    · obtain ⟨e, he⟩ := h.unwritten d hd
      exact ⟨e, others _ e he⟩
    · rw [mem_singleton.mp hd]
      exact unwritten
  · rw [functions, map_append, nodup_append]
    refine ⟨h.apart, pairwise_singleton .., fun f hf f' hf' => ?_⟩
    obtain ⟨d, hd, rfl⟩ := mem_map.mp hf
    rw [mem_singleton.mp hf']
    exact Nat.ne_of_lt (fresh ▸ (h.between.signed d hd).known)
  · rw [functions] at hd
    rcases mem_append.mp hd with hd | hd
    · rw [(grows.func d.func (h.between.signed d hd).known).name]
      exact h.named d hd hsingle
    · rw [mem_singleton.mp hd] at hsingle ⊢
      refine named.trans (Package.linkName_of_single hname fun f hf => ?_)
      obtain ⟨m', hm', rfl, hkey⟩ := hoverloads _ f hf
      rw [hsingle m' (hdone m' hm') hkey]
      exact same_self _

/-! ## Resolved methods -/

/-- The methods that are not to come have been resolved, and the types of the variables with numbers
below `n` are settled. -/
structure Resolving (u : SourceUnit) (rest : List Method) (rs : List Core.Method) (n : Nat) : Prop where
  origins : ∃ done, u.methods = done ++ rest ∧
    rs.map Core.Method.origin = (done.map (MethodDef.mk u.number)).reverse
  sound : ∃ st : Setting, st.known = (· ∈ u.origins) ∧ ∀ τ, st.Agrees n τ → ∀ r ∈ rs, r.Sound τ

variable {st : Setting} {fs : List MethodFunc} {rs : List Core.Method} {r : Core.Method} {m : Method}
  {rest : List Method} {n k : Nat}

theorem resolving_start (u : SourceUnit) (n : Nat) : Resolving u u.methods [] n :=
  ⟨⟨[], rfl, rfl⟩, ⟨fun _ => .int, (· ∈ u.origins)⟩, rfl, fun _ _ _ hr => absurd hr not_mem_nil⟩

theorem Resolving.add (h : Resolving u (m :: rest) rs n) (horigin : r.origin = ⟨u.number, m⟩)
    (hr : ∀ st : Setting, st.known = (· ∈ u.origins) →
      ∃ st' : Setting, ∀ τ, st'.Agrees k τ → st.Agrees n τ ∧ r.Sound τ) :
    Resolving u rest (r :: rs) k := by
  obtain ⟨⟨done, hms, horigins⟩, st, hknown, hsound⟩ := h
  obtain ⟨st', hst'⟩ := hr st hknown
  refine ⟨⟨done ++ [m], by rw [hms, append_assoc]; rfl, ?_⟩, st',
    (hst' st' (.refl ..)).1.known.trans hknown, fun τ hτ => ?_⟩
  · rw [map_cons, horigins, horigin, map_append, reverse_append]
    rfl
  · obtain ⟨hagrees, hr⟩ := hst' τ hτ
    exact forall_mem_cons.mpr ⟨hr, hsound τ hagrees⟩

/-- What is known about the functions and the resolved methods of a unit. -/
structure Resolved (u : SourceUnit) (st : Setting) (fs : List MethodFunc) (rs : List Core.Method) :
    Prop where
  known : ∀ f, st.known f ↔ f ∈ u.origins
  functions : fs.map MethodFunc.method = u.origins
  apart : (fs.map MethodFunc.func).Nodup
  origins : rs.map Core.Method.origin = u.origins.reverse
  sound : ∀ r ∈ rs, r.Sound st

theorem Resolving.resolved (h : Resolving u [] rs n) (hc : Collected u u.methods env l) :
    ∃ st, Resolved u st l.functions rs := by
  obtain ⟨⟨done, hms, horigins⟩, st, hknown, hsound⟩ := h
  rw [append_nil] at hms
  refine ⟨st, fun f => by rw [hknown], hc.functions, hc.apart, ?_, hsound st (.refl ..)⟩
  rw [horigins, ← hms]
  rfl

/-- A method of the unit is found among things that belong to its methods. -/
theorem IsPlain.exists_find? {α : Type} {xs : List α} {k : α → MethodDef} (hu : u.IsPlain)
    (hxs : ∀ f, f ∈ xs.map k ↔ f ∈ u.origins) (hf : f ∈ u.origins) :
    ∃ x, xs.find? (fun x => (k x).same f) = some x ∧ x ∈ xs ∧ k x = f := by
  obtain ⟨x₀, hx₀, hf₀⟩ := mem_map.mp ((hxs f).mpr hf)
  cases hfind : xs.find? fun x => (k x).same f with
  | none => exact absurd (same_self f) (hf₀ ▸ List.find?_eq_none.mp hfind x₀ hx₀)
  | some x =>
    have hx := mem_of_find?_eq_some hfind
    have hsame := List.find?_some hfind
    exact ⟨x, rfl, hx, hu.eq_of_same ((hxs _).mp (mem_map_of_mem hx)) hf hsame⟩

namespace Resolved

section

variable (h : Resolved u st fs rs)

include h

theorem exists_function (hu : u.IsPlain) (hf : f ∈ u.origins) :
    ∃ d, fs.find? (fun d => d.method.same f) = some d ∧ d ∈ fs ∧ d.method = f :=
  hu.exists_find? (fun f => by rw [h.functions]) hf

theorem exists_method (hu : u.IsPlain) (hf : f ∈ u.origins) :
    ∃ r, rs.find? (fun r => r.origin.same f) = some r ∧ r ∈ rs ∧ r.origin = f :=
  hu.exists_find? (fun f => by rw [h.origins, mem_reverse]) hf

theorem complete (hu : u.IsPlain) : Lowering.Complete st fs := by
  intro f hf
  obtain ⟨d, hd, -, -⟩ := h.exists_function hu ((h.known f).mp hf)
  exact ⟨d, hd⟩

theorem eq_of_origin (hu : u.IsPlain) {r' : Core.Method} (hr : r ∈ rs)
    (hr' : r' ∈ rs) (heq : r.origin = r'.origin) : r = r' := by
  have hnodup : (rs.map Core.Method.origin).Nodup := by
    rw [h.origins, nodup_reverse]
    have hnodes := hu.nodup
    have hids : u.methods.map (fun m => m.mark.id) =
        u.origins.map fun f => f.method.mark.id := by
      unfold SourceUnit.origins
      rw [map_map]
      rfl
    rw [hids] at hnodes
    exact hnodes.of_map _
  exact inj_on_of_nodup_map hnodup hr hr' heq

end

end Resolved

/-! ## Lowered methods -/

/-- The bodies of the methods that are not to come have been lowered. -/
structure Generating (u : SourceUnit) (fs : List MethodFunc) (rs : List Core.Method)
    (rest : List Method) (l : LoweringState) : Prop where
  between : Lowering.Between l
  functions : l.functions = fs
  noPhi : ∀ v, (l.module.value v).op ≠ .phi
  unwritten : ∀ d ∈ fs, d.method ∈ rest.map (MethodDef.mk u.number) →
    ∃ e, l.module.Unwritten d.func e
  built : ∀ r ∈ rs, r.origin ∉ rest.map (MethodDef.mk u.number) → ∀ d,
    fs.find? (fun d => d.method.same r.origin) = some d → ∃ e, Lowering.Built fs l.module r d.func e
  named : ∀ d ∈ fs, (∀ m ∈ u.methods, m.name = d.method.method.name → m = d.method.method) →
    (l.module.func d.func).name = d.method.method.name

theorem Resolved.generating (h : Resolved u st l.functions rs) (hc : Collected u u.methods env l) :
    Generating u l.functions rs u.methods l := by
  refine ⟨hc.between, rfl, hc.noPhi, fun d hd _ => hc.unwritten d hd, fun r hr hnot => ?_, hc.named⟩
  exact absurd (mem_reverse.mp (h.origins ▸ mem_map_of_mem hr)) hnot

theorem Generating.method {l' : LoweringState} {dv : Lowering.Defaults} {y : Unit}
    (h : Generating u fs rs (m :: rest) l) (hu : u.IsPlain) (hres : Resolved u st fs rs)
    (hnew : m ∉ rest) (hr : r ∈ rs) (horigin : r.origin = ⟨u.number, m⟩)
    (hl : Runs (Lowering.method dv r) env l y l') : Generating u fs rs rest l' := by
  have hf : (⟨u.number, m⟩ : MethodDef) ∈ u.origins :=
    horigin ▸ mem_reverse.mp (hres.origins ▸ mem_map_of_mem hr)
  have hnew' : (⟨u.number, m⟩ : MethodDef) ∉ rest.map (MethodDef.mk u.number) := by
    intro hmem
    obtain ⟨m', hm', heq⟩ := mem_map.mp hmem
    cases heq
    exact hnew hm'
  obtain ⟨d, hd, hdmem, hdmethod⟩ := hres.exists_function hu hf
  obtain ⟨e, he⟩ := h.unwritten d hdmem (hdmethod ▸ mem_cons_self)
  obtain ⟨between, grows, functions, built, others⟩ := h.between.method
    (h.functions ▸ hres.complete hu) (hres.sound r hr) (by rw [h.functions, horigin]; exact hd) he hl
  rw [h.functions] at built
  -- the entry blocks of other functions are left alone
  have hother : ∀ d' ∈ fs, d'.method ≠ ⟨u.number, m⟩ → ∀ e', l.module.Rooted d'.func e' →
      (l'.module.block e').Like (l.module.block e') := by
    intro d' hd' hne e' he'
    refine others e' he'.bound fun heq => hne ?_
    have hfunc : d'.func = d.func := by rw [← he'.home, ← he.home, heq]
    rw [inj_on_of_nodup_map hres.apart hd' hdmem hfunc, hdmethod]
  refine ⟨between, functions.trans h.functions, fun v => ?_, fun d' hd' hrest => ?_,
    fun r' hr' hrest d' hfind' => ?_, fun d' hd' hsingle => ?_⟩
  · rcases Nat.lt_or_ge v l.module.values.size with hlt | hge
    · rw [(grows.value v hlt).op]
      exact h.noPhi v
    · exact grows.noPhi v hge
  · obtain ⟨e', he'⟩ := h.unwritten d' hd' (mem_cons_of_mem _ hrest)
    have hne : d'.method ≠ ⟨u.number, m⟩ := fun heq => hnew' (heq ▸ hrest)
    exact ⟨e', he'.grows grows (hother d' hd' hne e' he'.toRooted)⟩
  · by_cases heq : r'.origin = r.origin
    · obtain rfl := hres.eq_of_origin hu hr' hr heq
      rw [horigin] at hfind'
      obtain rfl : d' = d := Option.some.inj (hfind'.symm.trans hd)
      exact ⟨e, built⟩
    · have hne : r'.origin ≠ ⟨u.number, m⟩ := fun h => heq (h.trans horigin.symm)
      have hnot : r'.origin ∉ (m :: rest).map (MethodDef.mk u.number) :=
        not_mem_cons_of_ne_of_not_mem hne hrest
      obtain ⟨e', hb⟩ := h.built r' hr' hnot d' hfind'
      have hr'' : r'.origin ∈ u.origins :=
        mem_reverse.mp (hres.origins ▸ mem_map_of_mem hr')
      obtain ⟨d'', hd'', hmem'', horigin''⟩ := hres.exists_function hu hr''
      obtain rfl : d'' = d' := Option.some.inj (hd''.symm.trans hfind')
      exact ⟨e', hb.grows grows h.between.tidy (hother d'' hmem'' (horigin'' ▸ hne) e' hb.rooted)⟩
  · rw [(grows.func d'.func (h.between.signed d' (h.functions ▸ hd')).known).name]
    exact h.named d' hd' hsingle

/-- What compilation makes of a plain unit: every method has been resolved, and its body has been
lowered into a function of its own. -/
structure Compiled (u : SourceUnit) (st : Setting) (M : Module) (fs : List MethodFunc)
    (rs : List Core.Method) : Prop extends Resolved u st fs rs where
  noPhi : ∀ v, (M.value v).op ≠ .phi
  signed : ∀ d ∈ fs, Lowering.Signed M d
  built : ∀ r ∈ rs, ∀ d, fs.find? (fun d => d.method.same r.origin) = some d →
    ∃ e, Lowering.Built fs M r d.func e
  named : ∀ d ∈ fs, (∀ m ∈ u.methods, m.name = d.method.method.name → m = d.method.method) →
    (M.func d.func).name = d.method.method.name

theorem Generating.compiled (h : Generating u fs rs [] l) (hres : Resolved u st fs rs) :
    Compiled u st l.module l.functions rs := by
  rw [h.functions]
  exact { hres with
    noPhi := h.noPhi
    signed := fun d hd => h.between.signed d (h.functions ▸ hd)
    built := fun r hr d hd => h.built r hr not_mem_nil d hd
    named := h.named }

end SourceUnit

end SsaCompiler
