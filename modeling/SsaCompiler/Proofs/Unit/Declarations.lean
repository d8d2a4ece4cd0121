import SsaCompiler.Proofs.Ty.Erasure
import SsaCompiler.Proofs.Unit.PlainUnits

/-!
# The phases that declare

The phases before bodies are resolved collect classes and methods. A method is only added when no
overload of its name has the same parameter types, so that at most one overload fits a call, in
whatever order they were declared. What has been declared is found again when the phases are run once
more, and then nothing changes but the list of events.
-/

namespace SsaCompiler

open List

/-! ## Overloads -/

namespace Package

variable {p : Package} {key : String}

/-- No two overloads of a name have identical parameter types. -/
def Distinct (p : Package) : Prop :=
  ∀ key, (p.overloads key).Pairwise fun f g =>
    Ty.identicalAll f.method.paramTypes g.method.paramTypes = false

/-- The overloads of a name whose parameter types are identical to given types. -/
def fitting (p : Package) (key : String) (args : List Ty) : List MethodDef :=
  (p.overloads key).filter fun f => Ty.identicalAll f.method.paramTypes args

theorem resolveMethod_eq (p : Package) (key : String) (args : List Ty) :
    p.resolveMethod key args = (p.fitting key args).head? :=
  List.head?_filter.symm

/-- Types that fit two methods would make their parameter types identical. -/
theorem Distinct.fitting_eq (h : p.Distinct) (key : String) (args : List Ty) :
    p.fitting key args = (p.resolveMethod key args).toList := by
  have hone : (p.fitting key args).Pairwise fun _ _ => False := by
    refine pairwise_filter.mpr ((h key).imp fun hne hf hg => ?_)
    rw [Ty.identicalAll_iff] at hf hg
    exact Bool.false_ne_true (hne.symm.trans ((Ty.identicalAll_iff ..).mpr (hf.trans hg.symm)))
  rw [resolveMethod_eq]
  rcases hfs : p.fitting key args with _ | ⟨f, _ | ⟨g, fs⟩⟩
  · rfl
  · rfl
  · rw [hfs] at hone
    exact ((pairwise_cons.mp hone).1 g mem_cons_self).elim

theorem Distinct.resolveMethod_perm (h : p.Distinct) {q : Package}
    (hq : (q.overloads key).Perm (p.overloads key)) (args : List Ty) :
    q.resolveMethod key args = p.resolveMethod key args := by
  have hperm : (q.fitting key args).Perm (p.resolveMethod key args).toList :=
    h.fitting_eq key args ▸ hq.filter _
  rw [q.resolveMethod_eq]
  cases hp : p.resolveMethod key args with
  | none => rw [hp] at hperm; rw [hperm.eq_nil]; rfl
  | some f => rw [hp] at hperm; rw [perm_singleton.mp hperm]; rfl

end Package

/-! ## What methods have nothing to do with -/

/-- What is known apart from the methods of the own package. -/
def Env.bare (env : Env) : Env :=
  { env with own := { env.own with methods := [] } }

namespace Layout

variable (env : Env) (structOf : StructOf) (s : Scalar)

theorem stored_bare : ∀ ds, stored env.bare structOf s ds = stored env structOf s ds
  | [] => rfl
  | d :: ds => by rw [stored, stored, stored_bare ds]

theorem struct_bare (fuel : Nat) : struct env.bare fuel = struct env fuel := by
  induction fuel with
  | zero => rfl
  | succ fuel ih =>
    funext active c
    unfold struct storage
    simp only [stored_bare, ih]
    rfl

end Layout

/-! ## Steps one behind the other -/

namespace Compile

variable {α β : Type} {x : Compile α} {f : α → Compile β} {s t : Compilation} {a : α} {b : β}

theorem goes_fail_bind {site : Site} {cause : Cause} : ¬ Goes (fail site cause >>= f) s b t := by
  intro h
  obtain ⟨_, _, hfail, -⟩ := goes_bind.mp h
  exact runs_throw hfail

/-- What holds of notes of events, and of two steps one behind the other if it holds of both. -/
structure Walk (P : Compile Unit → Prop) : Prop where
  done : P (pure ())
  note : ∀ g : List Event → List Event, P (modify fun s => { s with events := g s.events })
  seq : ∀ {x y}, P x → P y → P (x >>= fun _ => y)

namespace Walk

variable {P : Compile Unit → Prop} (hP : Walk P)

include hP

theorem observe {p : Phase} {n : Node} {x : Compile Unit} (hx : P x) : P (observe p n x) :=
  hP.seq (hP.note _) (hP.seq hx (hP.note _))

theorem eachMethod {p : Phase} {g : Method → Compile Unit} (h : ∀ m, P (g m)) :
    ∀ ms, P (eachMethod p g ms)
  | [] => hP.done
  | m :: ms => hP.seq (hP.observe (h m)) (eachMethod h ms)

theorem phase {p : Phase} (h : ∀ d, P (dispatch p d)) : ∀ ds, P (phase p ds)
  | [] => hP.done
  | d :: ds => hP.seq (hP.observe (h d)) (phase h ds)

end Walk

/-- A step that does nothing but take notes of events. -/
def Idle (x : Compile Unit) (s : Compilation) : Prop :=
  ∀ es, ∃ es', Goes x { s with events := es } () { s with events := es' }

/-- A step that leads from states to related ones, and does nothing when it is run once more, there or
later on. -/
def Repeats (R : Compilation → Compilation → Prop) (x : Compile Unit) : Prop :=
  ∀ ⦃s t⦄, Goes x s () t → R s t ∧ ∀ ⦃t'⦄, R t t' → Idle x t'

/-- To a relation between states, events do not matter, nor how many steps lie between the states. -/
structure Leads (R : Compilation → Compilation → Prop) : Prop where
  events : ∀ s es, R s { s with events := es }
  trans : ∀ ⦃s t u⦄, R s t → R t u → R s u

theorem Leads.walk {R : Compilation → Compilation → Prop} (hR : Leads R) : Walk (Repeats R) where
  done s t h := by
    cases h
    exact ⟨hR.events s s.events, fun _ _ es => ⟨es, rfl⟩⟩
  note g s t h := by
    cases h
    exact ⟨hR.events _ _, fun _ _ es => ⟨g es, rfl⟩⟩
  seq {x y} hx hy s t h := by
    obtain ⟨⟨⟩, u, hxu, hyt⟩ := goes_bind.mp h
    obtain ⟨hsu, hx⟩ := hx hxu
    obtain ⟨hut, hy⟩ := hy hyt
    refine ⟨hR.trans hsu hut, fun t' ht' es => ?_⟩
    obtain ⟨es', hes'⟩ := hx (hR.trans hut ht') es
    obtain ⟨es'', hes''⟩ := hy ht' es'
    exact ⟨es'', goes_bind.mpr ⟨(), _, hes', hes''⟩⟩

/-! ## Classes -/

/-- A later state: classes are found that were found before. -/
structure Extends (s t : Compilation) : Prop where
  unit : t.unit = s.unit
  classes : ∀ name c, s.env.own.class? name = some c → t.env.own.class? name = some c
  distinct : s.env.own.Distinct → t.env.own.Distinct

theorem leads_extends : Leads Extends where
  events _ _ := ⟨rfl, fun _ _ h => h, id⟩
  trans _ _ _ h k := ⟨k.unit.trans h.unit, fun _ _ hc => k.classes _ _ (h.classes _ _ hc),
    k.distinct ∘ h.distinct⟩

theorem repeats_postProcessType (d : Decl) : Repeats Extends (postProcessType d) := by
  cases d with
  | classDecl c =>
    intro s t h
    unfold postProcessType at h ⊢
    dsimp only at h ⊢
    split at h
    · exact absurd h goes_fail_bind
    next hparams =>
    split at h
    · exact absurd h goes_fail_bind
    next hname =>
    obtain ⟨r, u, hr, h⟩ := goes_bind.mp h
    cases hr
    split at h
    · exact absurd h goes_fail_bind
    next hnew =>
    cases h
    obtain ⟨old, hold, hsame⟩ := s.env.own.class?_defineClass s.unit.number c
    rw [hsame, Bool.not_eq_true', Bool.not_eq_false] at hnew
    rw [if_neg hparams, if_neg hname]
    refine ⟨⟨rfl, fun _ _ hc => Package.class?_defineClass_of_some hc .., fun hd => ?_⟩,
      fun t' ht' es => ⟨es, goes_bind.mpr ⟨_, _, rfl, ?_⟩⟩⟩
    · unfold Package.defineClass
      split <;> exact hd
    · have hunit : t'.unit.number = s.unit.number := congrArg _ ht'.unit
      have hagain : t'.env.own.defineClass t'.unit.number c = (t'.env.own, true) := by
        rw [Package.defineClass, ht'.classes _ _ hold, hunit]
        exact congrArg _ hnew
      rw [hagain]
      rfl
  | _ => exact leads_extends.walk.done

/-! ## Fields and methods -/

/-- A later state: methods are defined that were defined before, and nothing else of the environment
has changed. -/
structure Completes (s t : Compilation) : Prop where
  unit : t.unit = s.unit
  packages : t.packages = s.packages
  env : t.env.bare = s.env.bare
  defined : ∀ key f, s.env.own.defines key f → t.env.own.defines key f
  distinct : s.env.own.Distinct → t.env.own.Distinct

theorem leads_completes : Leads Completes where
  events _ _ := ⟨rfl, rfl, rfl, fun _ _ h => h, id⟩
  trans _ _ _ h k := ⟨k.unit.trans h.unit, k.packages.trans h.packages, k.env.trans h.env,
    fun _ _ hf => k.defined _ _ (h.defined _ _ hf), k.distinct ∘ h.distinct⟩

theorem Completes.class?_eq (h : Completes s t) (name : String) :
    t.env.own.class? name = s.env.own.class? name := by
  show t.env.bare.own.class? name = s.env.bare.own.class? name
  rw [h.env]

theorem Completes.extends (h : Completes s t) : Extends s t :=
  ⟨h.unit, fun name _ hc => (h.class?_eq name).trans hc, h.distinct⟩

/-- A step that changes nothing, and has the same result when more methods are defined. -/
def Looks (x : Compile α) : Prop :=
  ∀ ⦃s a t⦄, Goes x s a t → t = s ∧ ∀ ⦃s'⦄, Completes s s' → Goes x s' a s'

namespace Looks

theorem fail_bind {site : Site} {cause : Cause} : Looks (fail site cause >>= f) :=
  fun _ _ _ h => absurd h goes_fail_bind

theorem hasModule : Looks hasModule := by
  intro s a t h
  cases h
  exact ⟨rfl, fun s' hs => congrArg (fun ps => (Except.ok (Option.isSome ps), s')) hs.packages⟩

theorem lift {y : Env → Except Failure α} (hy : ∀ env, y env.bare = y env) : Looks (lift y) := by
  intro s a t h
  obtain ⟨r, u, hr, h⟩ := goes_bind.mp h
  cases hr
  split at h
  next b hb =>
    cases h
    refine ⟨rfl, fun s' hs => goes_bind.mpr ⟨_, _, rfl, ?_⟩⟩
    rw [← hy, hs.env, hy, hb]
    rfl
  next => exact absurd h runs_throw

theorem bind (hx : Looks x) (hf : ∀ a, Looks (f a)) : Looks (x >>= f) := by
  intro s b t h
  obtain ⟨a, u, hxa, hfb⟩ := goes_bind.mp h
  obtain ⟨rfl, hx⟩ := hx hxa
  obtain ⟨rfl, hf⟩ := hf a hfb
  exact ⟨rfl, fun s' hs => goes_bind.mpr ⟨a, s', hx hs, hf hs⟩⟩

theorem repeats {y : α → Compile Unit} (hx : Looks x) (hy : ∀ a, Repeats Completes (y a)) :
    Repeats Completes (x >>= y) := by
  intro s t h
  obtain ⟨a, u, hxa, hyt⟩ := goes_bind.mp h
  obtain ⟨rfl, hx⟩ := hx hxa
  obtain ⟨hst, hidle⟩ := hy a hyt
  refine ⟨hst, fun t' ht' es => ?_⟩
  obtain ⟨es', hes⟩ := hidle ht' es
  have hlater := leads_completes.trans (leads_completes.trans hst ht') (leads_completes.events t' es)
  exact ⟨es', goes_bind.mpr ⟨a, _, hx hlater, hes⟩⟩

end Looks

/-- A step that depends on what is the same in later states. -/
theorem repeats_get {g : Compilation → Compile Unit} (hg : ∀ s t, Completes s t → g t = g s)
    (h : ∀ s, Repeats Completes (g s)) : Repeats Completes (get >>= g) := by
  intro s t hgo
  obtain ⟨hst, hidle⟩ := h s hgo
  refine ⟨hst, fun t' ht' es => ?_⟩
  have hlater := leads_completes.trans (leads_completes.trans hst ht') (leads_completes.events t' es)
  obtain ⟨es', hes⟩ := hidle ht' es
  rw [← hg _ _ hlater] at hes
  exact ⟨es', hes⟩

theorem looks_checkFields (c : ClassDecl) : ∀ fs seen, Looks (checkFields c seen fs)
  | [], _ => by
    intro s a t h
    cases h
    exact ⟨rfl, fun _ _ => rfl⟩
  | f :: fs, seen => by
    have hrest := looks_checkFields c fs (f.name :: seen)
    unfold checkFields
    dsimp only
    split
    · exact .fail_bind
    refine Looks.hasModule.bind fun b => ?_
    split
    · refine (Looks.lift fun _ => rfl).bind fun _ => ?_
      split
      · exact .fail_bind
      · exact hrest
    · exact hrest

theorem goes_lowering {y : Lowering α} (h : Goes (lowering y) s a t) :
    ∃ l, t = { s with lowering := l } := by
  obtain ⟨r, u, hr, h⟩ := goes_bind.mp h
  cases hr
  obtain ⟨⟨⟩, u, hu, h⟩ := goes_bind.mp h
  cases hu
  split at h
  · cases h
    exact ⟨_, rfl⟩
  · exact absurd h runs_throw

theorem completes_defineMethod {key : String} {g : MethodDef} (hdef : s.env.own.defines key g = false)
    (hnew : ¬ ((s.env.own.overloads key).any fun o =>
      Ty.identicalAll o.method.paramTypes g.method.paramTypes)) (l : LoweringState) :
    Completes s { s with
      env := { s.env with own := s.env.own.defineMethod key g }, lowering := l } where
  unit := rfl
  packages := rfl
  env := by
    simp only [Env.bare, Package.defineMethod, hdef]
    rfl
  defined key' f hf := by
    simp only [Package.defines, Package.overloads_defineMethod hdef, any_append]
    exact Bool.or_eq_true_iff.mpr (.inl hf)
  distinct h key' := by
    rw [Package.overloads_defineMethod hdef]
    split
    next hk =>
      subst hk
      refine pairwise_append.mpr ⟨h key, pairwise_singleton .., fun f hf g hg => ?_⟩
      rw [mem_singleton.mp hg]
      simpa using fun hid => hnew (any_eq_true.mpr ⟨f, hf, hid⟩)
    next =>
      rw [append_nil]
      exact h key'

theorem goes_defineMethod {key : String} {m : Method} (h : Goes (defineMethod key m) s () t) :
    Completes s t ∧ t.env.own.defines key ⟨t.unit.number, m⟩ := by
  obtain ⟨g, u, hg, h⟩ := goes_bind.mp h
  cases hg
  obtain ⟨r, u, hr, h⟩ := goes_bind.mp h
  cases hr
  dsimp only at h
  split at h
  next hdef =>
    cases h
    exact ⟨leads_completes.events s s.events, hdef⟩
  next hdef =>
  have hdef := Bool.eq_false_iff.mpr hdef
  have hadded : (s.env.own.defineMethod key ⟨s.unit.number, m⟩).defines key ⟨s.unit.number, m⟩ =
      true := by
    simp [Package.defines, Package.overloads_defineMethod hdef, SourceUnit.same_self]
  obtain ⟨b, u, hb, h⟩ := goes_bind.mp h
  cases hb
  -- with a module, the head of the method is checked before and its function is made behind
  split at h
  · split at h
    · exact absurd h goes_fail_bind
    split at h
    · exact absurd h goes_fail_bind
    next hnew =>
      obtain ⟨_, u, hu, h⟩ := goes_bind.mp h
      cases hu
      obtain ⟨_, u, hu, h⟩ := goes_bind.mp h
      obtain ⟨l, rfl⟩ := goes_lowering hu
      cases h
      exact ⟨completes_defineMethod hdef hnew l, hadded⟩
  · split at h
    · exact absurd h goes_fail_bind
    next hnew =>
      obtain ⟨_, u, hu, h⟩ := goes_bind.mp h
      cases hu
      cases h
      exact ⟨completes_defineMethod hdef hnew _, hadded⟩

theorem repeats_defineMethod (key : String) (m : Method) : Repeats Completes (defineMethod key m) := by
  intro s t h
  obtain ⟨hst, hdef⟩ := goes_defineMethod h
  refine ⟨hst, fun t' ht' es => ⟨es, ?_⟩⟩
  show Goes (ite _ _ _) _ _ _
  rw [if_pos (ht'.unit ▸ ht'.defined _ _ hdef)]
  rfl

theorem repeats_postProcessMember (d : Decl) : Repeats Completes (postProcessMember d) := by
  cases d with
  | classDecl c =>
    refine repeats_get (fun s t hst => by rw [hst.class?_eq]) fun s => ?_
    split
    · exact leads_completes.walk.done
    · refine (looks_checkFields ..).repeats fun _ => Looks.hasModule.repeats fun b => ?_
      have hmethods := leads_completes.walk.eachMethod (p := .postProcessMember)
        (fun m => repeats_defineMethod (c.name ++ "." ++ m.name) m) (methodsOf c.members)
      split
      · exact (Looks.lift fun env => congrFun (congrFun (Layout.struct_bare ..) _) _).repeats fun _ =>
          hmethods
      · exact hmethods
  | method m => exact repeats_defineMethod m.name m
  | _ => exact leads_completes.walk.done

/-! ## Package name and imports -/

/-- A step that leaves the overloads of every name distinct. -/
def Keeps (x : Compile α) : Prop :=
  ∀ ⦃s a t⦄, Goes x s a t → s.env.own.Distinct → t.env.own.Distinct

theorem Keeps.bind (hx : Keeps x) (hf : ∀ a, Keeps (f a)) : Keeps (x >>= f) := by
  intro s b t h hs
  obtain ⟨a, u, hxa, hfb⟩ := goes_bind.mp h
  exact hf a hfb (hx hxa hs)

theorem keeps_modify {g : Compilation → Compilation}
    (hg : ∀ s, (g s).env.own.methods = s.env.own.methods) : Keeps (modify g) := by
  intro s a t h hs key
  cases h
  have hkey := hs key
  unfold Package.overloads at hkey ⊢
  rwa [hg]

theorem walk_keeps : Walk Keeps where
  done _ _ _ h hs := by
    cases h
    exact hs
  note _ := keeps_modify fun _ => rfl
  seq hx hy := hx.bind fun _ => hy

theorem keeps_preProcess (d : Decl) : Keeps (preProcess d) := by
  have hget : Keeps (get : Compile Compilation) := by
    intro s a t h hs
    cases h
    exact hs
  have himport : ∀ site ps name, Keeps (importable site ps name) := by
    intro site ps name s a t h hs
    unfold importable at h
    split at h
    · cases h
      exact hs
    · exact absurd h runs_throw
  refine Keeps.bind (keeps_modify fun _ => rfl) fun _ => ?_
  cases d with
  | package _ name => exact keeps_modify fun _ => rfl
  | importing _ name | «using» _ name =>
    refine hget.bind fun r => ?_
    split
    · exact keeps_modify fun _ => rfl
    · exact (himport ..).bind fun _ => keeps_modify fun _ => rfl
  | _ => exact walk_keeps.done

/-! ## All phases that declare -/

/-- After the phases that declare, overloads are distinct if they were at the start, and both phases
behind the first one have nothing to do any more. -/
theorem goes_declaring (h : Goes (phases Phase.declaring) s () t) :
    (s.env.own.Distinct → t.env.own.Distinct) ∧
      Idle (phases [.postProcessType, .postProcessMember]) t := by
  obtain ⟨_, _, hget, h⟩ := goes_bind.mp h
  cases hget
  obtain ⟨_, u, hpre, h⟩ := goes_bind.mp h
  obtain ⟨_, _, hget, h⟩ := goes_bind.mp h
  cases hget
  obtain ⟨_, v, htypes, h⟩ := goes_bind.mp h
  obtain ⟨_, _, hget, h⟩ := goes_bind.mp h
  cases hget
  obtain ⟨_, w, hmembers, h⟩ := goes_bind.mp h
  cases h
  obtain ⟨huv, htypes⟩ :=
    leads_extends.walk.phase (p := .postProcessType) repeats_postProcessType _ htypes
  obtain ⟨hvt, hmembers⟩ :=
    leads_completes.walk.phase (p := .postProcessMember) repeats_postProcessMember _ hmembers
  have hpre := walk_keeps.phase (p := .preProcess) keeps_preProcess _ hpre
  refine ⟨fun hs => hvt.distinct (huv.distinct (hpre hs)), fun es => ?_⟩
  obtain ⟨es', hes'⟩ := htypes hvt.extends es
  obtain ⟨es'', hes''⟩ := hmembers (leads_completes.events t t.events) es'
  rw [← huv.unit, ← hvt.unit] at hes'
  rw [← hvt.unit] at hes''
  exact ⟨es'', goes_bind.mpr ⟨_, _, rfl, goes_bind.mpr ⟨(), _, hes',
    goes_bind.mpr ⟨_, _, rfl, goes_bind.mpr ⟨(), _, hes'', rfl⟩⟩⟩⟩⟩

end Compile

namespace SourceUnit

/-- Overloads are told apart by the types of the arguments: of the methods that a unit declares under
a name, at most one has parameter types identical to the arguments, and it is the one that is found. In
another order of the overloads the same one is found. -/
theorem resolveMethod_exact (u : SourceUnit) (p : Package) (h : u.declare = .ok p) (key : String)
    (args : List Ty) :
    p.fitting key args = (p.resolveMethod key args).toList ∧
      ∀ q : Package, (q.overloads key).Perm (p.overloads key) →
        q.resolveMethod key args = p.resolveMethod key args := by
  have hdistinct : p.Distinct := by
    unfold declare at h
    split at h
    next s hs =>
      cases h
      exact (Compile.goes_declaring hs).1 fun _ => .nil
    next => cases h
  exact ⟨hdistinct.fitting_eq key args, fun q hq => hdistinct.resolveMethod_perm hq args⟩

/-- A method of the machine, a class with fields and overloads, and overloads on the top level. -/
def pairText : String :=
  "extern int puts(string s) \x7b \x7d\n" ++
  "class Pair \x7b int x, y\n" ++
  " int at(int n) \x7b return n \x7d\n int at(long n) \x7b return x \x7d \x7d\n" ++
  "int first(Pair p) \x7b return p.x \x7d\nint first(int n) \x7b return n \x7d"

theorem declares_pairText : ∃ u p, SourceUnit.read 0 "pair.vs" pairText.toList = .ok u ∧
    u.declare = .ok p ∧ (p.resolveMethod "Pair.at" [.ofPrimitive .long]).isSome ∧
    ((Compile.phases Phase.declaring).run (Compilation.start u (some []))).1.isOk := by
  have hcheck : ((SourceUnit.read 0 "pair.vs" pairText.toList).toOption.any fun u =>
      (u.declare.toOption.any fun p =>
        (p.resolveMethod "Pair.at" [.ofPrimitive .long]).isSome) &&
      ((Compile.phases Phase.declaring).run (Compilation.start u (some []))).1.isOk) := by
    decide +kernel
  obtain ⟨u, hread, hcheck⟩ := exists_ok_of_any hcheck
  obtain ⟨hdeclare, hphases⟩ := Bool.and_eq_true_iff.mp hcheck
  obtain ⟨p, hdeclare, hfound⟩ := exists_ok_of_any hdeclare
  exact ⟨u, p, hread, hdeclare, hfound, hphases⟩

theorem resolveMethod_exact_pairText : ∃ u p f, SourceUnit.read 0 "pair.vs" pairText.toList = .ok u ∧
    u.declare = .ok p ∧ p.fitting "Pair.at" [.ofPrimitive .long] = [f] ∧
    Package.resolveMethod { p with methods := [⟨"Pair.at", (p.overloads "Pair.at").reverse⟩] }
      "Pair.at" [.ofPrimitive .long] = some f := by
  obtain ⟨u, p, hread, hdeclare, hfound, -⟩ := declares_pairText
  obtain ⟨f, hf⟩ := Option.isSome_iff_exists.mp hfound
  obtain ⟨hfitting, hperm⟩ := resolveMethod_exact u p hdeclare "Pair.at" [.ofPrimitive .long]
  rw [hf] at hfitting hperm
  exact ⟨u, p, f, hread, hdeclare, hfitting, hperm _ (reverse_perm _)⟩

/-- The phases that declare can be run again behind the package name and the imports, with a module or
without one: they succeed and leave everything but the list of events as it was. -/
theorem declaring_again (u : SourceUnit) (packages : Option (List Package)) (s : Compilation)
    (h : (Compile.phases Phase.declaring).run (Compilation.start u packages) = (.ok (), s)) :
    ∃ es, (Compile.phases [.postProcessType, .postProcessMember]).run s =
      (.ok (), { s with events := es }) :=
  (Compile.goes_declaring h).2 s.events

theorem declaring_again_pairText : ∃ u s es, SourceUnit.read 0 "pair.vs" pairText.toList = .ok u ∧
    (Compile.phases Phase.declaring).run (Compilation.start u (some [])) = (.ok (), s) ∧
    (Compile.phases [.postProcessType, .postProcessMember]).run s =
      (.ok (), { s with events := es }) := by
  obtain ⟨u, _, hread, -, -, hphases⟩ := declares_pairText
  have hgoes := Compile.goes_of_isOk hphases
  obtain ⟨es, hes⟩ := declaring_again u (some []) _ hgoes
  exact ⟨u, _, es, hread, hgoes, hes⟩

end SourceUnit

end SsaCompiler
