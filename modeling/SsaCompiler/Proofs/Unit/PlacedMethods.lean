import Mathlib.Data.List.Pairwise
import SsaCompiler.Proofs.Typing.TypedMethod
import SsaCompiler.Proofs.Unit.IntegralUnits
import SsaCompiler.Proofs.Unit.Outcomes

/-!
# The phases before the last one

Before bodies are lowered, every method with a body has a function, whose entry block is open, and
there are no other open blocks. Every body has been resolved: its variables are declared before they
are used, and have numbers that no other method uses. None of the phases fails over blocks or
variables.

If the unit is integral, all bodies and default values are fit for verification. If it is plain, its
methods are given their functions and resolved in order.
-/

namespace SsaCompiler

open List Compile
open Ssa (FuncRef Module)

/-! ## Functions -/

/-- Entries for different methods, with different functions if they have bodies. -/
def MethodFunc.Apart (d d' : MethodFunc) : Prop :=
  d.method.same d'.method = false ∧ (d.isDefined → d'.isDefined → d.func ≠ d'.func)

instance : Std.Symm MethodFunc.Apart where
  symm d d' h := by
    have hsame : d'.method.same d.method = d.method.same d'.method :=
      congrArg₂ and BEq.comm BEq.comm
    exact ⟨hsame.trans h.1, fun hd' hd => (h.2 hd hd').symm⟩

namespace Lowering

/-- Methods have been given functions: open are the entry blocks of the functions with a body, and no
other blocks. -/
structure Entered (s : LoweringState) : Prop where
  own : s.module.OwnBlocks
  isOpen : ∀ d ∈ s.functions, d.isDefined →
    ∃ e, (s.module.func d.func).entry = some e ∧ s.module.IsOpen e
  all : ∀ b, s.module.IsOpen b → ∃ d ∈ s.functions, d.isDefined ∧
    d.func = (s.module.block b).func ∧ (s.module.func d.func).entry = some b
  defined : ∀ d ∈ s.functions, d.isDefined = !Typing.isExternal d.method.method
  apart : s.functions.Pairwise MethodFunc.Apart
  storage : s.storage = []

theorem entered_start (name : String) : Entered { builder := { module := { name := name } } } where
  own := by
    refine ⟨fun f b hb => ?_, fun f e he => ?_⟩
    · exact absurd hb not_mem_nil
    · cases he
  isOpen d hd := absurd hd not_mem_nil
  all b hb := absurd hb.1 (Nat.not_lt_zero b)
  defined d hd := absurd hd not_mem_nil
  apart := .nil
  storage := rfl

variable {s : LoweringState} {f : MethodDef} {g : FuncRef} {m : Module}

theorem Entered.eq_of_not_apart (h : Entered s) {d d' : MethodFunc} (hd : d ∈ s.functions)
    (hd' : d' ∈ s.functions) (hnot : ¬ d.Apart d') : d = d' := by
  by_contra hne
  exact hnot (h.apart.forall hd hd' hne)

/-- A method without a body gets a function that is only declared. -/
theorem Entered.declare (h : Entered s) (hnew : ∀ d ∈ s.functions, d.method.same f = false)
    (hext : Typing.isExternal f.method) (hq : s.module.Quiet m) :
    Entered { s.withModule m with functions := s.functions ++ [⟨f, g, false⟩] } where
  own := hq.ownBlocks h.own
  isOpen := by
    refine forall_mem_append.mpr ⟨fun d hd hdef => ?_, forall_mem_singleton.mpr ?_⟩
    · obtain ⟨e, he, ho⟩ := h.isOpen d hd hdef
      exact ⟨e, (hq.entry _).trans he, hq.isOpen_iff.mpr ho⟩
    · intro hdef
      cases hdef
  all b hb := by
    obtain ⟨d, hd, hdef, hfunc, he⟩ := h.all b (hq.isOpen_iff.mp hb)
    exact ⟨d, mem_append_left _ hd, hdef, hfunc.trans (hq.home b).symm, (hq.entry _).trans he⟩
  defined := forall_mem_append.mpr ⟨h.defined, forall_mem_singleton.mpr (by rw [hext]; rfl)⟩
  apart := by
    refine pairwise_append.mpr ⟨h.apart, pairwise_singleton .., fun d hd d' hd' => ?_⟩
    rw [mem_singleton.mp hd']
    exact ⟨hnew d hd, fun _ hdef => absurd hdef Bool.false_ne_true⟩
  storage := h.storage

/-- A method with a body gets a function with an open entry block. -/
theorem Entered.define (h : Entered s) (hnew : ∀ d ∈ s.functions, d.method.same f = false)
    (hext : Typing.isExternal f.method = false) (ho : s.module.Opens g m)
    (hnone : (s.module.func g).entry = none)
    (hentry : (m.func g).entry = some s.module.blocks.size) :
    Entered { s.withModule m with functions := s.functions ++ [⟨f, g, true⟩] } where
  own := ho.ownBlocks h.own
  isOpen := by
    refine forall_mem_append.mpr ⟨fun d hd hdef => ?_, forall_mem_singleton.mpr ?_⟩
    · obtain ⟨e, he, hopen⟩ := h.isOpen d hd hdef
      exact ⟨e, ho.entry _ e he, ho.isOpen hopen⟩
    · exact fun _ => ⟨_, hentry, ho.isOpen_new⟩
  all b hb := by
    rcases ho.isOpen_cases hb with hb | rfl
    · obtain ⟨d, hd, hdef, hfunc, he⟩ := h.all b hb
      exact ⟨d, mem_append_left _ hd, hdef, hfunc.trans (ho.home b hb.1).symm, ho.entry _ b he⟩
    · exact ⟨_, mem_append_right _ (mem_singleton_self _), rfl, ho.newHome.symm, hentry⟩
  defined := forall_mem_append.mpr ⟨h.defined, forall_mem_singleton.mpr (by rw [hext]; rfl)⟩
  apart := by
    refine pairwise_append.mpr ⟨h.apart, pairwise_singleton .., fun d hd d' hd' => ?_⟩
    rw [mem_singleton.mp hd']
    refine ⟨hnew d hd, fun hdef _ heq => ?_⟩
    obtain ⟨e, he, -⟩ := h.isOpen d hd hdef
    rw [heq, hnone] at he
    cases he
  storage := h.storage

theorem triple_function {F : List MethodFunc} {key : String} :
    Triple (fun _ => True) (fun s => Entered s ∧ s.functions = F) (function .own key f)
      (fun _ s => Entered s ∧ F ⊆ s.functions ∧ Found s.functions f ∧
        ∀ d ∈ s.functions, d ∈ F ∨ d.method = f) fun e _ => e.Allowed True := by
  have hadd : ∀ (g : FuncRef) (isDefined : Bool), Triple (fun _ => True)
      (fun s => Entered { s with functions := s.functions ++ [⟨f, g, isDefined⟩] } ∧ s.functions = F)
      (do modify fun s => { s with functions := s.functions ++ [⟨f, g, isDefined⟩] }; return g :
        Lowering FuncRef)
      (fun _ s => Entered s ∧ F ⊆ s.functions ∧ Found s.functions f ∧
        ∀ d ∈ s.functions, d ∈ F ∨ d.method = f) fun e _ => e.Allowed True := by
    intro g isDefined
    refine Triple.bind (Triple.modify fun s hs => ⟨hs.1, ?_⟩) fun _ => .pure fun _ hs => hs
    rw [hs.2]
    refine ⟨subset_append_left .., ?_, forall_mem_append.mpr ⟨fun d hd => .inl hd, ?_⟩⟩
    · exact ⟨_, mem_append_right _ (mem_singleton_self _), SourceUnit.same_self f⟩
    · exact forall_mem_singleton.mpr (.inr rfl)
  refine Triple.get_bind fun r hr => ?_
  rw [hr.2]
  split
  next d hd =>
    refine .pure fun s hs => ⟨hs.1, ?_⟩
    rw [hs.2]
    have hsame := List.find?_some hd
    exact ⟨List.Subset.refl _, ⟨d, mem_of_find?_eq_some hd, hsame⟩, fun d hd => .inl hd⟩
  next hnone =>
    have hnew : ∀ d ∈ F, d.method.same f = false := fun d hd =>
      Bool.eq_false_iff.mpr (List.find?_eq_none.mp hnone d hd)
    refine Triple.bind (Triple.read fun _ _ _ hs => hs) fun env => ?_
    refine Triple.bind (J := fun _ s => Entered s ∧ s.functions = F) ?_ fun sig => ?_
    · intro env s _ hs
      refine ⟨fun sig t hr => ?_, fun e t he => ?_⟩
      · exact (runs_lift.mp hr).2 ▸ hs
      · exact (signature_standard env .own f.method).allowed e (fails_lift.mp he).1
    split
    next hext =>
      refine Triple.bind ?_ fun g => hadd g false
      rintro env s _ ⟨hs, rfl⟩
      refine ⟨fun g t hr => ?_, fun e t he => ?_⟩
      · cases hr
        exact ⟨hs.declare hnew hext (Module.quiet_declareFunction ..), rfl⟩
      · cases he
    next hext =>
      refine Triple.bind ?_ fun g => hadd g true
      rintro env s _ ⟨hs, rfl⟩
      refine ⟨fun g t hr => ?_, fun e t he => ?_⟩
      · obtain ⟨y, hy, rfl⟩ := runs_build.mp hr
        obtain ⟨m, hdef, rfl⟩ := Ssa.Build.run_defineFunction.mp hy
        obtain ⟨ho, hnone, hentry⟩ := Module.opens_defineFunction? hdef
        exact ⟨hs.define hnew (Bool.eq_false_iff.mpr hext) ho hnone hentry, rfl⟩
      · obtain ⟨m, hm, rfl, rfl⟩ := fails_build.mp he
        obtain rfl := Ssa.Build.eq_of_defineFunction_error hm
        exact ⟨rfl, fun _ => rfl⟩

end Lowering

namespace SourceUnit

open Compile (Meets)

variable {u : SourceUnit} {packages : List Package} {m : Method} {d : Decl} {rest : List Method}

/-! ## Packages and classes -/

/-- All classes are declared in the unit. -/
def Knows (u : SourceUnit) (cs : List ClassDef) : Prop :=
  ∀ c ∈ cs, ∃ d, Decl.classDecl d ∈ u.decls ∧ c = .ofDecl u.number d

/-- What holds before methods are given functions. The classes of the declarations that are not to come
are known. -/
structure FindingClasses (u : SourceUnit) (rest : List Decl) (s : Compilation) : Prop where
  unit : s.unit = u
  packages : s.packages.isSome
  methods : s.methods = []
  defaults : s.defaults = []
  overloads : s.env.own.methods = []
  lowering : s.lowering = { builder := { module := { name := u.moduleName } } }
  classes : ∀ c, Decl.classDecl c ∈ u.decls →
    Decl.classDecl c ∈ rest ∨ (s.env.own.class? c.name).isSome
  known : u.Knows s.env.own.classes
  alone : u.IsIntegral ∨ u.IsPlain → s.env.imported = [] ∧ s.env.used = []
  main : u.IsPlain → s.env.own.name = Package.mainName

theorem meets_preProcess (hd : d ∈ u.decls) :
    Meets (FindingClasses u u.decls) (Compile.preProcess d) fun _ => FindingClasses u u.decls := by
  have henv : ∀ s env, FindingClasses u u.decls s → env.own.methods = s.env.own.methods →
      env.own.classes = s.env.own.classes →
      (d.isIntegral ∨ d.isPlain →
        env.imported = s.env.imported ∧ env.used = s.env.used) →
      (d.isPlain → env.own.name = s.env.own.name ∨ env.own.name = Package.mainName) →
      FindingClasses u u.decls { s with env := env } := by
    intro s env hs hmethods hclasses halone hmain
    refine { hs with
      overloads := hmethods.trans hs.overloads
      classes := fun c hc => .inl hc
      known := hclasses ▸ hs.known
      alone := fun hu => ?_
      main := fun hu => (hmain (hu.decls d hd)).elim (·.trans (hs.main hu)) id }
    obtain ⟨himported, hused⟩ := halone (hu.imp (·.decls d hd) (·.decls d hd))
    exact ⟨himported.trans (hs.alone hu).1, hused.trans (hs.alone hu).2⟩
  have himport : ∀ {site ps name}, Meets (FindingClasses u u.decls) (Compile.importable site ps name)
      fun _ => FindingClasses u u.decls := by
    intro site ps name
    unfold Compile.importable
    split
    · exact .pure fun _ hs => hs
    · exact .fail
  refine Meets.bind (J := fun _ => FindingClasses u u.decls) (.modify fun s hs => { hs with })
    fun _ => ?_
  cases d with
  | package _ name =>
    exact .modify fun s hs => henv s _ hs rfl rfl (fun _ => ⟨rfl, rfl⟩) fun hd => .inr (eq_of_beq hd)
  | importing _ name | «using» _ name =>
    have hother : ∀ s env, FindingClasses u u.decls s → env.own.methods = s.env.own.methods →
        env.own.classes = s.env.own.classes → FindingClasses u u.decls { s with env := env } := by
      refine fun s env hs hmethods hclasses => henv s env hs hmethods hclasses ?_ ?_
      · rintro (hd | hd) <;> cases hd
      · rintro ⟨⟩
    refine .get_bind fun r hr => ?_
    split
    · exact .modify fun s hs => hother s _ hs rfl rfl
    · exact himport.bind fun p => .modify fun s hs => hother s _ hs rfl rfl
  | _ => exact .pure fun _ hs => hs

theorem meets_postProcessType {rest : List Decl} (hd : d ∈ u.decls) :
    Meets (FindingClasses u (d :: rest)) (Compile.postProcessType d) fun _ =>
      FindingClasses u rest := by
  cases d with
  | classDecl c =>
    refine .pointwise fun r hr => ?_
    unfold Compile.postProcessType
    dsimp only
    split
    · exact .fail_bind
    split
    · exact .fail_bind
    refine .get_bind fun r' hr' => ?_
    obtain rfl := hr'
    split
    · exact .fail_bind
    refine .modify fun s hs => ?_
    obtain rfl := hs
    refine { hr with overloads := ?_, classes := fun c' hc' => ?_, known := ?_, alone := hr.alone,
                     main := fun hu => absurd hd hu.classDecl_not_mem }
    · unfold Package.defineClass
      split
      · exact hr.overloads
      · exact hr.overloads
    · rcases hr.classes c' hc' with hmem | hsome
      · rcases mem_cons.mp hmem with heq | hmem
        · cases heq
          obtain ⟨old, hold, -⟩ := s.env.own.class?_defineClass s.unit.number c
          exact .inr (Option.isSome_of_eq_some hold)
        · exact .inl hmem
      · obtain ⟨old, hold⟩ := Option.isSome_iff_exists.mp hsome
        exact .inr (Option.isSome_of_eq_some (Package.class?_defineClass_of_some hold ..))
    · unfold Package.defineClass
      split
      · exact hr.known
      · exact forall_mem_append.mpr ⟨hr.known,
          forall_mem_singleton.mpr ⟨c, hd, by rw [hr.unit]⟩⟩
  | _ =>
    refine .pure fun s hs => { hs with classes := fun c hc => ?_ }
    rcases hs.classes c hc with hmem | hsome
    · rcases mem_cons.mp hmem with heq | hmem
      · cases heq
      · exact .inl hmem
    · exact .inr hsome

/-! ## Fields, methods and their functions -/

/-- All methods have functions. -/
structure Given (u : SourceUnit) (env : Env) (l : LoweringState) : Prop where
  entered : Lowering.Entered l
  owns : ∀ d ∈ l.functions, u.Owns d.method
  declared : ∀ m ∈ u.allMethods, Lowering.Found l.functions ⟨u.number, m⟩
  classes : ∀ c, Decl.classDecl c ∈ u.decls → (env.own.class? c.name).isSome
  known : u.Knows env.own.classes
  integral : u.IsIntegral → env.Integral (Lowering.Found l.functions)
  giving : u.IsIntegral → Lowering.Giving l
  collected : u.IsPlain → Collected u u.methods env l

/-- What holds while methods are given functions. The methods of `rest` are to come. -/
structure GivingFunctions (u : SourceUnit) (rest : List Method) (s : Compilation) : Prop where
  unit : s.unit = u
  packages : s.packages.isSome
  methods : s.methods = []
  defaults : s.defaults = []
  classes : ∀ c, Decl.classDecl c ∈ u.decls → (s.env.own.class? c.name).isSome
  known : u.Knows s.env.own.classes
  overloads : ∀ key, ∀ f ∈ s.env.own.overloads key, u.Owns f ∧ Lowering.Found s.lowering.functions f
  entered : Lowering.Entered s.lowering
  owns : ∀ d ∈ s.lowering.functions, u.Owns d.method
  declared : ∀ m ∈ u.allMethods, m ∈ rest ∨ Lowering.Found s.lowering.functions ⟨u.number, m⟩
  alone : u.IsIntegral → s.env.imported = [] ∧ s.env.used = []
  giving : u.IsIntegral → Lowering.Giving s.lowering
  collected : u.IsPlain → ∃ done, u.methods = done ++ rest ∧ Collected u done s.env s.lowering

theorem FindingClasses.givingFunctions {s : Compilation} (h : FindingClasses u [] s) :
    GivingFunctions u u.allMethods s where
  unit := h.unit
  packages := h.packages
  methods := h.methods
  defaults := h.defaults
  classes c hc := (h.classes c hc).resolve_left not_mem_nil
  known := h.known
  overloads key f hf := by
    rw [Package.overloads, h.overloads] at hf
    exact absurd hf not_mem_nil
  entered := h.lowering ▸ Lowering.entered_start _
  owns d hd := by
    rw [h.lowering] at hd
    exact absurd hd not_mem_nil
  declared m hm := .inl hm
  alone hu := h.alone (.inl hu)
  giving _ := h.lowering ▸ Lowering.giving_start _
  collected hu := by
    obtain ⟨himported, hused⟩ := h.alone (.inr hu)
    refine ⟨[], hu.allMethods_eq.symm, ?_⟩
    rw [h.lowering]
    exact collected_start u (h.main hu) himported hused h.overloads

theorem GivingFunctions.given {s : Compilation} (h : GivingFunctions u [] s) :
    Given u s.env s.lowering where
  entered := h.entered
  owns := h.owns
  declared m hm := (h.declared m hm).resolve_left not_mem_nil
  classes := h.classes
  known := h.known
  integral hu := by
    refine ⟨(h.alone hu).1, (h.alone hu).2, fun name c hc f hf => ?_, fun key f hf => ?_⟩
    · obtain ⟨d, hd, rfl⟩ := h.known c (mem_of_find?_eq_some hc)
      exact (ClassDef.isFloatFree_of_mem_fields (hu.decls _ hd) hf).1
    · obtain ⟨⟨m, hm, rfl⟩, hfound⟩ := h.overloads key f hf
      exact ⟨hfound, (hu.head hm).1⟩
  giving := h.giving
  collected hu := by
    obtain ⟨done, hms, hc⟩ := h.collected hu
    rw [append_nil] at hms
    exact hms ▸ hc

section

variable {key : String} {r : Compilation} {l : LoweringState}

/-- A method that has its function is not looked for any more. -/
theorem found_of_cons {F : List MethodFunc} (hm : Lowering.Found F ⟨u.number, m⟩)
    (h : ∀ m' ∈ u.allMethods, m' ∈ m :: rest ∨ Lowering.Found F ⟨u.number, m'⟩) :
    ∀ m' ∈ u.allMethods, m' ∈ rest ∨ Lowering.Found F ⟨u.number, m'⟩ := by
  intro m' hm'
  rcases h m' hm' with hmem | hfound
  · rcases mem_cons.mp hmem with rfl | hmem
    · exact .inr hm
    · exact .inl hmem
  · exact .inr hfound

/-- A method that has been defined before has its function. -/
theorem GivingFunctions.skip (h : GivingFunctions u (m :: rest) r) (hkey : u.IsPlain → key = m.name)
    (hdefined : r.env.own.defines key ⟨u.number, m⟩) : GivingFunctions u rest r := by
  obtain ⟨g, hmem, hsame⟩ := any_eq_true.mp hdefined
  obtain ⟨-, d, hd, hdg⟩ := h.overloads key g hmem
  refine { h with declared := found_of_cons ⟨d, hd, ?_⟩ h.declared, collected := fun hu => ?_ }
  · simp only [MethodDef.same, Bool.and_eq_true, beq_iff_eq] at hsame hdg ⊢
    exact ⟨hdg.1.trans hsame.1.symm, hdg.2.trans hsame.2.symm⟩
  · obtain ⟨done, hms, hc⟩ := h.collected hu
    rw [hkey hu, hc.defines_eq_false (hu.id_ne hms)] at hdefined
    cases hdefined

/-- A method is added to the package of the unit, and gets its function. -/
theorem GivingFunctions.define (h : GivingFunctions u (m :: rest) r) (hm : m ∈ u.allMethods)
    (hentered : Lowering.Entered l) (hold : r.lowering.functions ⊆ l.functions)
    (hnew : Lowering.Found l.functions ⟨u.number, m⟩)
    (hall : ∀ d ∈ l.functions, d ∈ r.lowering.functions ∨ d.method = ⟨u.number, m⟩)
    (hgiving : u.IsIntegral → Lowering.Giving l)
    (hcollected : u.IsPlain → ∃ done, u.methods = done ++ rest ∧ Collected u done
      { r.env with own := r.env.own.defineMethod key ⟨u.number, m⟩ } l) :
    GivingFunctions u rest { r with
      env := { r.env with own := r.env.own.defineMethod key ⟨u.number, m⟩ }, lowering := l } := by
  have hkeep : ∀ f, Lowering.Found r.lowering.functions f → Lowering.Found l.functions f :=
    fun f ⟨d, hd, hsame⟩ => ⟨d, hold hd, hsame⟩
  have hclasses := r.env.own.classes_defineMethod key ⟨u.number, m⟩
  have hclass : ∀ name, (r.env.own.defineMethod key ⟨u.number, m⟩).class? name =
      r.env.own.class? name := fun name => congrArg (List.find? _) hclasses
  refine { h with
    classes := fun c hc => (hclass _).symm ▸ h.classes c hc
    known := hclasses ▸ h.known
    overloads := fun key' f hf => ?_
    entered := hentered
    owns := fun d hd => (hall d hd).elim (h.owns d) fun heq => ⟨m, hm, heq⟩
    declared := found_of_cons hnew fun m' hm' => (h.declared m' hm').imp_right (hkeep _)
    giving := hgiving
    collected := hcollected }
  rcases Package.mem_overloads_defineMethod hf with ⟨rfl, -⟩ | hf
  · exact ⟨⟨m, hm, rfl⟩, hnew⟩
  · obtain ⟨howns, hfound⟩ := h.overloads key' f hf
    exact ⟨howns, hkeep f hfound⟩

end

theorem meets_defineMethod {key : String} (hm : m ∈ u.allMethods) (hkey : u.IsPlain → key = m.name) :
    Meets (GivingFunctions u (m :: rest)) (Compile.defineMethod key m) fun _ =>
      GivingFunctions u rest := by
  refine .pointwise fun r hr => ?_
  refine (meets_own fun s hs => hs ▸ hr.unit).bind fun f => .known fun hf => ?_
  subst hf
  refine .get_bind fun r' hr' => ?_
  subst hr'
  dsimp only
  split
  next hdefined => exact .pure fun s hs => hs ▸ hr.skip hkey hdefined
  refine Meets.bind (meets_hasModule fun s hs => ?_) fun b => .known fun hb => ?_
  · exact hs ▸ hr.packages
  subst hb
  rw [if_pos rfl]
  split
  · exact .fail_bind
  split
  · exact .fail_bind
  refine Meets.bind (J := fun _ s => s = { r' with
      env := { r'.env with own := r'.env.own.defineMethod key ⟨u.number, m⟩ } })
    (.modify fun s hs => by rw [hs]) fun _ => ?_
  refine Meets.bind (meets_lowering (J := fun _ => GivingFunctions u rest)
    (Triple.also
      (R := fun env => env = { r'.env with own := r'.env.own.defineMethod key ⟨u.number, m⟩ })
      (fun _ _ _ hs => Lowering.triple_function (F := r'.lowering.functions) trivial hs)
      (P := fun l => l = r'.lowering)
      (Q := fun _ l => (u.IsIntegral → Lowering.Giving l) ∧ (u.IsPlain → ∃ done,
        u.methods = done ++ rest ∧ Collected u done
          { r'.env with own := r'.env.own.defineMethod key ⟨u.number, m⟩ } l)) ?_)
    (fun _ _ h => h) (fun s hs => hs ▸ rfl) ?_ ?_) fun _ => .pure fun _ hs => hs
  · rintro _ _ g l rfl rfl hrun
    refine ⟨fun hu => ?_, fun hu => ?_⟩
    · exact (hr.giving hu).function (Method.isExternal_of_isIntegral (hu.method hm)) hrun
    · obtain ⟨done, hms, hc⟩ := hr.collected hu
      rw [hkey hu] at hrun ⊢
      exact ⟨done ++ [m], by rw [hms, append_assoc]; rfl, hc.defineMethod hu hms hrun⟩
  · exact fun s hs => hs ▸ ⟨⟨hr.entered, rfl⟩, rfl⟩
  · rintro s g l rfl ⟨⟨hentered, hold, hnew, hall⟩, hgiving, hcollected⟩
    exact hr.define hm hentered hold hnew hall hgiving hcollected

theorem meets_checkFields {c : ClassDecl} {r : Compilation} (hr : r.packages.isSome) :
    ∀ (fs : List FieldDef) (seen : List String),
    Meets (fun s => s = r) (Compile.checkFields c seen fs) fun _ s => s = r
  | [], _ => .pure fun _ hs => hs
  | f :: fs, seen => by
    unfold Compile.checkFields
    dsimp only
    split
    · exact .fail_bind
    refine Meets.bind (meets_hasModule fun s hs => hs ▸ hr) fun b => .known fun hb => ?_
    subst hb
    refine Meets.bind (meets_lift fun env => Typing.computes_checkType env _ _) fun _ =>
      .known fun _ => ?_
    split
    · exact .fail_bind
    · exact meets_checkFields hr fs _

theorem meets_postProcessMember (hd : d ∈ u.decls) :
    Meets (GivingFunctions u (d.methods ++ rest)) (Compile.postProcessMember d) fun _ =>
      GivingFunctions u rest := by
  cases d with
  | classDecl c =>
    refine .pointwise fun r hr => .get_bind fun r' hr' => ?_
    subst hr'
    split
    next hnone =>
      have hsome := hr.classes c hd
      rw [hnone] at hsome
      cases hsome
    next cls hcls =>
      refine (meets_checkFields hr.packages _ _).bind fun _ => ?_
      refine Meets.bind (meets_hasModule fun s hs => hs ▸ hr.packages) fun b =>
        .known fun hb => ?_
      subst hb
      refine (meets_lift fun env => env.classStruct_standard _).bind fun _ => ?_
      refine Meets.weaken (I := GivingFunctions u ((Decl.classDecl c).methods ++ rest)) ?_
        (fun s hs => hs.2 ▸ hr) fun _ _ h => h
      exact meets_eachMethod (fun _ _ _ hs => { hs with }) rest _ fun m hm rest =>
        meets_defineMethod (mem_allMethods hd hm) fun hu => absurd hd hu.classDecl_not_mem
  | method m => exact meets_defineMethod (mem_allMethods hd mem_cons_self) fun _ => rfl
  | _ => exact .pure fun _ hs => hs

/-! ## Bodies -/

/-- What is demanded of the methods of a unit that have been given functions. -/
abbrev demands (u : SourceUnit) (F : List MethodFunc) : Core.Demands :=
  ⟨True, u.IsIntegral, Lowering.Found F⟩

/-- Of the methods that are not to come, those with a body have been resolved. No two of them have a
variable in common. -/
structure Placed (u : SourceUnit) (F : List MethodFunc) (rest : List Method) (s : Compilation) :
    Prop where
  unit : s.unit = u
  placed : ∀ r ∈ s.methods, ∃ m ∈ u.allMethods, Typing.isExternal m = false ∧
    ∃ n k, k ≤ s.typing.nextVar ∧ Typing.MethodPlaced (u.demands F) ⟨u.number, m⟩ n k r
  apart : ∀ r ∈ s.methods, ∀ r' ∈ s.methods, ∀ v ∈ r.binds, v ∈ r'.binds → r.origin = r'.origin
  defaults : ∀ d ∈ s.defaults, d.value.Fit (u.demands F) []
  resolved : ∀ m ∈ u.allMethods, Typing.isExternal m = false →
    m ∈ rest ∨ ∃ r ∈ s.methods, r.origin = ⟨u.number, m⟩
  resolving : u.IsPlain → Resolving u rest s.methods s.typing.nextVar

/-- What holds while bodies and default values are resolved. -/
structure PlacingVars (u : SourceUnit) (env : Env) (l : LoweringState) (rest : List Method)
    (s : Compilation) : Prop extends Placed u l.functions rest s where
  env : s.env = env
  lowering : s.lowering = l

variable {env : Env} {l : LoweringState}

theorem GivingFunctions.placingVars {s : Compilation} (h : GivingFunctions u [] s) :
    PlacingVars u s.env s.lowering u.allMethods s where
  unit := h.unit
  env := rfl
  lowering := rfl
  placed _ hr := absurd (h.methods ▸ hr) not_mem_nil
  apart _ hr := absurd (h.methods ▸ hr) not_mem_nil
  defaults _ hd := absurd (h.defaults ▸ hd) not_mem_nil
  resolved _ hm _ := .inl hm
  resolving hu := h.methods ▸ hu.allMethods_eq ▸ resolving_start u _

/-- A resolved method has no variable in common with those before it. -/
theorem PlacingVars.add {s : Compilation} {ts : TypingState} {r : Core.Method}
    (h : PlacingVars u env l (m :: rest) s) (hm : m ∈ u.allMethods)
    (hext : Typing.isExternal m = false)
    (hr : Typing.MethodPlaced (u.demands l.functions) ⟨u.number, m⟩ s.typing.nextVar ts.nextVar r)
    (hsound : u.IsPlain → ∀ st : Core.Setting, st.known = (· ∈ u.origins) → ∃ st' : Core.Setting,
      ∀ τ, st'.Agrees ts.nextVar τ → st.Agrees s.typing.nextVar τ ∧ r.Sound τ) :
    PlacingVars u env l rest { s with typing := ts, methods := r :: s.methods } := by
  have hnew : ∀ r' ∈ s.methods, ∀ v ∈ r.binds, v ∉ r'.binds := by
    intro r' hr' v hv hv'
    obtain ⟨_, _, _, n, k, hk, hplaced⟩ := h.placed r' hr'
    have hlt := (hplaced.numbered.range v hv').2
    exact absurd (Nat.lt_of_lt_of_le hlt hk) (Nat.not_lt.mpr (hr.numbered.range v hv).1)
  refine { h with
    placed := ?_
    apart := ?_
    resolved := fun m' hm' hext' => ?_
    resolving := fun hu => (h.resolving hu).add hr.origin (hsound hu) }
  · refine forall_mem_cons.mpr ⟨⟨m, hm, hext, _, _, Nat.le_refl _, hr⟩, fun r' hr' => ?_⟩
    obtain ⟨m', hm', hext', n, k, hk, hplaced⟩ := h.placed r' hr'
    exact ⟨m', hm', hext', n, k, Nat.le_trans hk hr.numbered.le, hplaced⟩
  · refine forall_mem_cons.mpr ⟨forall_mem_cons.mpr ⟨fun _ _ _ => rfl, ?_⟩, ?_⟩
    · exact fun r' hr' v hv hv' => absurd hv' (hnew r' hr' v hv)
    · refine fun r' hr' => forall_mem_cons.mpr ⟨fun v hv hv' => ?_, h.apart r' hr'⟩
      exact absurd hv (hnew r' hr' v hv')
  · rcases h.resolved m' hm' hext' with hmem | ⟨r', hr', horigin⟩
    · rcases mem_cons.mp hmem with rfl | hmem
      · exact .inr ⟨r, mem_cons_self, hr.origin⟩
      · exact .inl hmem
    · exact .inr ⟨r', mem_cons_of_mem _ hr', horigin⟩

section

variable (hl : Given u env l)

include hl

theorem PlacingVars.sees {s t : Compilation} (h : PlacingVars u env l rest s) (ht : t = s) :
    Typing.Premise.Sees ⟨u.IsIntegral, u.IsPlain, Lowering.Found l.functions, (· ∈ u.origins)⟩
      t.env := by
  rw [ht, h.env]
  exact ⟨hl.integral, fun hu => (hl.collected hu).isPlain hu⟩

theorem meets_useMethod (hm : m ∈ u.allMethods) :
    Meets (PlacingVars u env l (m :: rest)) (Compile.useMethod m) fun _ =>
      PlacingVars u env l rest := by
  refine .pointwise fun s hs => ?_
  unfold Compile.useMethod
  split
  next hext =>
    have hext : Typing.isExternal m = false := by simpa using hext
    have hbody : u.IsIntegral → Stmt.allFloatFree m.body := fun hu =>
      (Bool.and_eq_true_iff.mp (hu.method hm)).2
    refine Meets.bind (meets_own fun t ht => ht ▸ hs.unit) fun f => .known fun hf => ?_
    subst hf
    refine Meets.bind (J := fun r t => PlacingVars u env l rest { t with methods := r :: t.methods })
      (meets_typing (Typing.triple_method (n := s.typing.nextVar)
        (fun hu => (hu.head hm).2) hbody fun hu => ?_)
        (fun _ => hs.sees hl) ?_ ?_) fun r => .modify fun _ ht => ht
    · exact hu.method (hu.allMethods_eq ▸ hm)
    · exact fun t ht => ht ▸ rfl
    · rintro t r ts rfl ⟨hr, hsettles⟩
      exact hs.add hm hext hr fun hu st hst => hsettles hu st (Typing.fits_start hst)
  next hext =>
    have hext : Typing.isExternal m := by simpa using hext
    refine .pure fun t ht => ht ▸ { hs with
      resolved := fun m' hm' hext' => ?_, resolving := fun hu => ?_ }
    · rcases hs.resolved m' hm' hext' with hmem | hr
      · rcases mem_cons.mp hmem with rfl | hmem
        · rw [hext] at hext'
          cases hext'
        · exact .inl hmem
      · exact .inr hr
    · rw [hu.isExternal_eq (hu.allMethods_eq ▸ hm)] at hext
      cases hext

theorem meets_postProcessUse (hd : d ∈ u.decls) :
    Meets (PlacingVars u env l (d.methods ++ rest)) (Compile.postProcessUse d) fun _ =>
      PlacingVars u env l rest := by
  cases d with
  | classDecl c =>
    refine .pointwise fun s hs => .get_bind fun r hr => ?_
    subst hr
    rw [hs.env]
    split
    next hnone =>
      have hsome := hl.classes c hd
      rw [hnone] at hsome
      cases hsome
    next cls hcls =>
      have hvalues : u.IsIntegral → ∀ f ∈ cls.fields, ∀ e ∈ f.value, e.isFloatFree := by
        intro hu f hf
        obtain ⟨d, hd, rfl⟩ := hl.known cls (mem_of_find?_eq_some hcls)
        exact (ClassDef.isFloatFree_of_mem_fields (hu.decls _ hd) hf).2
      refine Meets.bind (J := fun ds t => ∃ ts, t = { r with typing := ts } ∧
          (∀ d ∈ ds, d.value.Fit (u.demands l.functions) []) ∧ ts.nextVar = r.typing.nextVar)
        (meets_typing (Typing.triple_defaults (n := r.typing.nextVar) _ hvalues
          fun hu : u.IsPlain => hu.classDecl_not_mem hd)
          (fun _ => hs.sees hl) ?_ ?_) fun ds => ?_
      · exact fun t ht => ht ▸ rfl
      · exact fun t ds ts ht hds => ⟨ts, ht ▸ rfl, hds⟩
      refine Meets.bind (J := fun _ => PlacingVars u env l ((Decl.classDecl c).methods ++ rest))
        (.modify ?_) fun _ => ?_
      · rintro t ⟨ts, rfl, hds, hnext⟩
        exact { hs with placed := by rw [hnext]; exact hs.placed
                        defaults := forall_mem_append.mpr ⟨hs.defaults, hds⟩
                        resolving := fun hu => absurd hd hu.classDecl_not_mem }
      · exact meets_eachMethod (fun _ _ _ hs => { hs with }) rest _ fun m hm rest =>
          meets_useMethod hl (mem_allMethods hd hm)
  | method m => exact meets_useMethod hl (mem_allMethods hd mem_cons_self)
  | _ => exact .pure fun _ hs => hs

end

/-! ## All phases but the last one -/

theorem meets_resolving : Meets (fun s => s = Compilation.start u (some packages))
    (Compile.phases (Phase.declaring ++ [.postProcessUse])) fun _ s =>
      ∃ env l, Given u env l ∧ PlacingVars u env l [] s := by
  have hstart : FindingClasses u u.decls (Compilation.start u (some packages)) :=
    ⟨rfl, rfl, rfl, rfl, rfl, rfl, fun _ hc => .inl hc, forall_mem_nil _,
      fun _ => ⟨rfl, rfl⟩, fun _ => rfl⟩
  refine Meets.weaken (I := FindingClasses u u.decls) ?_ (fun s hs => hs ▸ hstart) fun _ _ h => h
  refine meets_phases_cons (fun s hs => hs.unit) (J := FindingClasses u u.decls) ?_ ?_
  · exact meets_phase (Q := fun _ => FindingClasses u u.decls) (fun _ _ _ hs => { hs with }) []
      _ fun _ hd _ => meets_preProcess hd
  refine meets_phases_cons (fun s hs => hs.unit) (J := FindingClasses u []) ?_ ?_
  · have hphase := meets_phase (p := .postProcessType) (Q := FindingClasses u)
      (fun _ _ _ hs => { hs with }) [] u.decls fun _ hd _ => meets_postProcessType hd
    rwa [append_nil] at hphase
  refine meets_phases_cons (fun s hs => hs.unit) (J := GivingFunctions u []) ?_ ?_
  · have hphase := meets_phase (p := .postProcessMember)
      (Q := fun ds => GivingFunctions u (ds.flatMap Decl.methods)) (fun _ _ _ hs => { hs with }) []
      u.decls fun _ hd _ => meets_postProcessMember hd
    rw [append_nil] at hphase
    exact hphase.weaken (fun s hs => hs.givingFunctions) fun _ _ h => h
  refine .pointwise fun s hs => ?_
  refine meets_phases_cons (fun t ht => ht ▸ hs.unit)
    (J := fun t => ∃ env l, Given u env l ∧ PlacingVars u env l [] t) ?_ meets_phases_nil
  have hphase := meets_phase (p := .postProcessUse)
    (Q := fun ds => PlacingVars u s.env s.lowering (ds.flatMap Decl.methods))
    (fun _ _ _ hs => { hs with }) [] u.decls fun _ hd _ => meets_postProcessUse hs.given hd
  rw [append_nil] at hphase
  exact hphase.weaken (fun t ht => ht ▸ hs.placingVars) fun _ t ht => ⟨_, _, hs.given, ht⟩

end SourceUnit

end SsaCompiler
