import SsaCompiler.Proofs.Outcomes
import SsaCompiler.Proofs.Ssa.OpenBlocks

/-!
# Open blocks while lowering goes on

While the body of a method is lowered, the current block is open or has an end, and there are other
open blocks that are still waited for: each of them will be the current block once. `Scene.At` says
which ones these are. A piece of lowering is described by the waiting blocks before and after it. An
expression leaves them as they are. A block that is made for later joins them, and to go on in a
waiting block takes it away.

Beside the blocks, `Scene.At` keeps account of the variables that have storage: all those that may be
used, and none of those that are still to be bound.

The same is said of failures. Whatever makes lowering fail, it is not the way in which blocks and
variables are used.
-/

namespace SsaCompiler

open List

/-- Whether a method is lowered wrongly as to its blocks and their ends. -/
def Defect.isFlow : Defect → Bool
  | .misuse e => e.isFlow
  | .fallsOff _ => true
  | _ => false

/-- Whether a variable is used before it has storage, or gets storage twice. -/
def Defect.isBinding : Defect → Bool
  | .unbound _ | .unboundSize | .boundTwice _ => true
  | _ => false

/-- Whether lowering may fail in this way. Variables are looked at only if `strict` is true. -/
def Failure.Allowed (strict : Prop) : Failure → Prop
  | .error _ => True
  | .internal d => d.isFlow = false ∧ (strict → d.isBinding = false)

theorem Failure.Allowed.weaken {p : Prop} : ∀ {e : Failure}, e.Allowed True → e.Allowed p
  | .error _, _ => trivial
  | .internal _, h => ⟨h.1, fun _ => h.2 trivial⟩

/-! ## Computations that may fail -/

/-- Every result of a computation has a property, and it fails only in an allowed way. -/
class Computes {α : Type} (x : Except Failure α) (P : α → Prop) : Prop where
  result : ∀ a, x = .ok a → P a
  allowed : ∀ e, x = .error e → e.Allowed True

namespace Computes

variable {α β : Type} {x : Except Failure α} {f : α → Except Failure β} {P : α → Prop} {Q : β → Prop}

theorem bind (hx : Computes x P) (hf : ∀ a, P a → Computes (f a) Q) : Computes (x >>= f) Q := by
  cases x with
  | error e =>
    refine ⟨fun b hb => (nomatch hb), fun e' he => ?_⟩
    cases he
    exact hx.allowed e rfl
  | ok a => exact hf a (hx.result a rfl)

theorem pure {a : α} (h : P a) : Computes (pure a) P := by
  refine ⟨fun b hb => ?_, fun e he => nomatch he⟩
  cases hb
  exact h

theorem throw {e : Failure} (h : e.Allowed True) : Computes (throw e : Except Failure α) P := by
  refine ⟨fun b hb => (nomatch hb), fun e' he => ?_⟩
  cases he
  exact h

theorem mapM {g : α → Except Failure β} (xs : List α) (hg : ∀ x ∈ xs, Computes (g x) Q) :
    Computes (xs.mapM g) fun ys => ys.length = xs.length ∧ ∀ y ∈ ys, Q y := by
  induction xs with
  | nil => exact pure ⟨rfl, forall_mem_nil _⟩
  | cons x xs ih =>
    obtain ⟨hx, hxs⟩ := forall_mem_cons.mp hg
    rw [mapM_cons]
    exact hx.bind fun y hy => (ih hxs).bind fun ys hys =>
      pure ⟨congrArg (· + 1) hys.1, forall_mem_cons.mpr ⟨hy, hys.2⟩⟩

end Computes

namespace Lowering

open Ssa (ValueRef BlockRef FuncRef Module Misuse)

variable {α β : Type} {s t : LoweringState} {o : Bool} {P Q : List BlockRef} {V V' U U' : List Nat}
  {b c : BlockRef} {f : FuncRef} {m : Module}

/-- What is fixed while a method is lowered: the functions of methods, those among them whose open
blocks are accounted for, with their entry blocks, and those that have no open block any more. If
`strict` is true, variables are accounted for, too, and if `whole` is true, operands are. -/
structure Scene where
  strict : Prop
  whole : Prop
  functions : List MethodFunc
  entry : FuncRef → Option BlockRef
  done : FuncRef → Prop
  done_entry : ∀ f, done f → (entry f).isSome

namespace Scene

variable {κ : Scene}

/-! ## States -/

/-- What holds in every state, also behind a failure. -/
structure Intact (κ : Scene) (s : LoweringState) : Prop where
  functions : κ.functions <+: s.functions
  own : κ.strict → s.module.OwnBlocks
  entry : ∀ f e, κ.entry f = some e → (s.module.func f).entry = some e
  done : ∀ b, s.module.IsOpen b → ¬ κ.done (s.module.block b).func

/-- Block `c` is the current one, and open if `o` is true. Of the other blocks, those of `P` are
open. -/
structure Stand (κ : Scene) (o : Bool) (c : BlockRef) (P : List BlockRef) (s : LoweringState) :
    Prop where
  current : s.builder.current = some c
  lt_size : c < s.module.blocks.size
  isTerminated : (s.module.block c).isTerminated = !o
  nodup : (c :: P).Nodup
  isOpen : ∀ b ∈ P, s.module.IsOpen b
  all : ∀ b, s.module.IsOpen b → (κ.entry (s.module.block b).func).isSome → b ∈ c :: P

/-- The current block is open if `o` is true, and the blocks of `P` wait. The variables of `V` have
storage, and no others do than those of `U`. -/
structure At (κ : Scene) (o : Bool) (P : List BlockRef) (V U : List Nat) (s : LoweringState) :
    Prop where
  intact : κ.Intact s
  stand : ∃ c, κ.Stand o c P s
  visible : κ.strict → ∀ v ∈ V, (s.storage.lookup v).isSome
  bound : κ.strict → ∀ v, (s.storage.lookup v).isSome → v ∈ U

theorem Stand.isOpen_current (h : κ.Stand true c P s) : s.module.IsOpen c :=
  ⟨h.lt_size, h.isTerminated⟩

theorem Stand.lt_of_mem (h : κ.Stand o c P s) (hb : b ∈ c :: P) : b < s.module.blocks.size := by
  rcases mem_cons.mp hb with rfl | hb
  · exact h.lt_size
  · exact (h.isOpen b hb).1

section

variable (h : κ.At o P V U s)

include h

theorem At.perm (hPQ : P.Perm Q) : κ.At o Q V U s := by
  obtain ⟨c, hc⟩ := h.stand
  refine ⟨h.intact, ⟨c, hc.current, hc.lt_size, hc.isTerminated, ?_, ?_, ?_⟩, h.visible, h.bound⟩
  · exact (hPQ.cons c).nodup_iff.mp hc.nodup
  · exact fun b hb => hc.isOpen b (hPQ.mem_iff.mpr hb)
  · exact fun b hb hf => (hPQ.cons c).mem_iff.mp (hc.all b hb hf)

theorem At.vars (hV : V' ⊆ V) (hU : U ⊆ U') : κ.At o P V' U' s :=
  ⟨h.intact, h.stand, fun hs v hv => h.visible hs v (hV hv), fun hs v hv => hU (h.bound hs v hv)⟩

theorem At.withTexts (ts : List (String × ValueRef)) :
    κ.At o P V U { s with texts := ts } := by
  obtain ⟨c, hc⟩ := h.stand
  exact ⟨⟨h.intact.functions, h.intact.own, h.intact.entry, h.intact.done⟩,
    ⟨c, hc.current, hc.lt_size, hc.isTerminated, hc.nodup, hc.isOpen, hc.all⟩, h.visible, h.bound⟩

theorem At.addFunction (d : MethodFunc) :
    κ.At o P V U { s with functions := s.functions ++ [d] } := by
  obtain ⟨c, hc⟩ := h.stand
  exact ⟨⟨h.intact.functions.trans (prefix_append ..), h.intact.own, h.intact.entry,
      h.intact.done⟩,
    ⟨c, hc.current, hc.lt_size, hc.isTerminated, hc.nodup, hc.isOpen, hc.all⟩, h.visible, h.bound⟩

theorem At.addStorage (v : Nat) (x : Storage) :
    κ.At o P (v :: V) (v :: U) { s with storage := (v, x) :: s.storage } := by
  have hlookup : ∀ w, (((v, x) :: s.storage).lookup w).isSome ↔
      w = v ∨ (s.storage.lookup w).isSome := by
    intro w
    rw [lookup_cons]
    split
    next heq => simp [eq_of_beq heq]
    next hne =>
      have hne : w ≠ v := by simpa using hne
      simp [hne]
  obtain ⟨c, hc⟩ := h.stand
  refine ⟨⟨h.intact.functions, h.intact.own, h.intact.entry, h.intact.done⟩,
    ⟨c, hc.current, hc.lt_size, hc.isTerminated, hc.nodup, hc.isOpen, hc.all⟩,
    fun hs w hw => (hlookup w).mpr ?_, fun hs w hw => ?_⟩
  · rcases mem_cons.mp hw with rfl | hw
    · exact .inl rfl
    · exact .inr (h.visible hs w hw)
  · rcases (hlookup w).mp hw with rfl | hw
    · exact mem_cons_self ..
    · exact mem_cons_of_mem _ (h.bound hs w hw)

end

/-! ## Changes of the module -/

theorem Intact.quiet (h : κ.Intact s) (hq : s.module.Quiet m) : κ.Intact (s.withModule m) where
  functions := h.functions
  own hs := hq.ownBlocks (h.own hs)
  entry f e he := (hq.entry f).trans (h.entry f e he)
  done b hb := by
    show ¬ κ.done (m.block b).func
    rw [hq.home]
    exact h.done b (hq.isOpen_iff.mp hb)

theorem At.quiet (h : κ.At o P V U s) (hq : s.module.Quiet m) : κ.At o P V U (s.withModule m) := by
  obtain ⟨c, hc⟩ := h.stand
  refine ⟨h.intact.quiet hq, ⟨c, hc.current, ?_, ?_, hc.nodup, ?_, ?_⟩, h.visible, h.bound⟩
  · exact hq.size ▸ hc.lt_size
  · exact (hq.isTerminated c).trans hc.isTerminated
  · exact fun b hb => hq.isOpen_iff.mpr (hc.isOpen b hb)
  · intro b hb hf
    exact hc.all b (hq.isOpen_iff.mp hb) (hq.home b ▸ hf)

theorem Intact.opens (h : κ.Intact s) (ho : s.module.Opens f m) (hf : ¬ κ.done f) :
    κ.Intact (s.withModule m) where
  functions := h.functions
  own hs := ho.ownBlocks (h.own hs)
  entry f e he := ho.entry f e (h.entry f e he)
  done b hb := by
    show ¬ κ.done (m.block b).func
    rcases ho.isOpen_cases hb with hb | rfl
    · rw [ho.home b hb.1]
      exact h.done b hb
    · rw [ho.newHome]
      exact hf

theorem At.opens (h : κ.At o P V U s) (ho : s.module.Opens f m) (hf : ¬ κ.done f) :
    κ.At o (s.module.blocks.size :: P) V U (s.withModule m) := by
  obtain ⟨c, hc⟩ := h.stand
  refine ⟨h.intact.opens ho hf, ⟨c, hc.current, ?_, ?_, ?_, ?_, ?_⟩, h.visible, h.bound⟩
  · exact Nat.lt_of_lt_of_eq (Nat.lt_succ_of_lt hc.lt_size) ho.size.symm
  · exact (ho.isTerminated c hc.lt_size).trans hc.isTerminated
  · refine (List.Perm.swap ..).nodup_iff.mp (nodup_cons.mpr ⟨fun hmem => ?_, hc.nodup⟩)
    exact absurd (hc.lt_of_mem hmem) (Nat.lt_irrefl _)
  · intro b hb
    rcases mem_cons.mp hb with rfl | hb
    · exact ho.isOpen_new
    · exact ho.isOpen (hc.isOpen b hb)
  · intro b hb hw
    rcases ho.isOpen_cases hb with hb | rfl
    · have hw : (κ.entry (m.block b).func).isSome := hw
      rw [ho.home b hb.1] at hw
      rcases mem_cons.mp (hc.all b hb hw) with rfl | hb
      · exact mem_cons_self ..
      · exact mem_cons_of_mem _ (mem_cons_of_mem _ hb)
    · exact mem_cons_of_mem _ (mem_cons_self ..)

theorem At.opensApart (h : κ.At o P V U s) (ho : s.module.Opens f m) (hf : κ.entry f = none) :
    κ.At o P V U (s.withModule m) := by
  have hdone : ¬ κ.done f := by
    intro hd
    have := κ.done_entry f hd
    rw [hf] at this
    cases this
  have hnew := h.opens ho hdone
  obtain ⟨c, hc⟩ := hnew.stand
  refine ⟨hnew.intact, ⟨c, hc.current, hc.lt_size, hc.isTerminated, ?_, ?_, ?_⟩, h.visible, h.bound⟩
  · exact hc.nodup.sublist ((sublist_cons_self ..).cons_cons c)
  · exact fun b hb => hc.isOpen b (mem_cons_of_mem _ hb)
  · intro b hb hw
    rcases mem_cons.mp (hc.all b hb hw) with rfl | hmem
    · exact mem_cons_self ..
    rcases mem_cons.mp hmem with rfl | hmem
    · have hw : (κ.entry (m.block s.module.blocks.size).func).isSome := hw
      rw [ho.newHome, hf] at hw
      cases hw
    · exact mem_cons_of_mem _ hmem

theorem At.closes (h : κ.At true P V U s) (hb : s.builder.current = some b)
    (hcl : s.module.Closes b m) : κ.At false P V U (s.withModule m) := by
  obtain ⟨c, hc⟩ := h.stand
  obtain rfl : c = b := Option.some.inj (hc.current.symm.trans hb)
  refine ⟨⟨h.intact.functions, fun hs => hcl.ownBlocks (h.intact.own hs), fun f e he => ?_,
    fun d hd => ?_⟩, ⟨c, hc.current, ?_, hcl.ended, hc.nodup, fun d hd => ?_, fun d hd hw => ?_⟩,
    h.visible, h.bound⟩
  · show (m.func f).entry = some e
    rw [hcl.func]
    exact h.intact.entry f e he
  · show ¬ κ.done (m.block d).func
    rw [hcl.home]
    exact h.intact.done d (hcl.isOpen_iff.mp hd).1
  · exact hcl.size ▸ hc.lt_size
  · refine hcl.isOpen_iff.mpr ⟨hc.isOpen d hd, ?_⟩
    rintro rfl
    exact (nodup_cons.mp hc.nodup).1 hd
  · have hw : (κ.entry (m.block d).func).isSome := hw
    rw [hcl.home] at hw
    exact hc.all d (hcl.isOpen_iff.mp hd).1 hw

theorem At.standingAt (h : κ.At false (b :: P) V U s) : κ.At true P V U (s.standingAt b) := by
  obtain ⟨c, hc⟩ := h.stand
  have hb := hc.isOpen b (mem_cons_self ..)
  refine ⟨⟨h.intact.functions, h.intact.own, h.intact.entry, h.intact.done⟩,
    ⟨b, rfl, hb.1, hb.2, (nodup_cons.mp hc.nodup).2,
      fun d hd => hc.isOpen d (mem_cons_of_mem _ hd), fun d hd hw => ?_⟩, h.visible, h.bound⟩
  rcases mem_cons.mp (hc.all d hd hw) with rfl | hmem
  · exact absurd (hd.2.symm.trans hc.isTerminated) Bool.false_ne_true
  · exact hmem

/-! ## Pieces of lowering -/

/-- A piece of lowering that starts where `I` is true leads to where `J` is true of its result. If it
fails, then not over the blocks and variables that are accounted for. -/
def Leads (κ : Scene) (I : LoweringState → Prop) (x : Lowering α) (J : α → LoweringState → Prop) :
    Prop :=
  Triple (fun _ => True) I x J fun e s => e.Allowed κ.strict ∧ κ.Intact s

/-- A piece of lowering that starts and ends in an open block, and leaves the others and the variables
as they are. -/
def Steady (κ : Scene) (V : List Nat) (x : Lowering α) : Prop :=
  ∀ P U, κ.Leads (κ.At true P V U) x fun _ => κ.At true P V U

theorem leads_fail {d : Defect} (hd : Failure.Allowed κ.strict (.internal d))
    (hI : ∀ s, I s → κ.Intact s) : κ.Leads I (fail d) J :=
  .throw fun s hs => ⟨hd, hI s hs⟩

theorem leads_of_runs {x : Lowering α} (h : ∀ env s, I s → ∃ a t, Runs x env s a t ∧ J a t) :
    κ.Leads I x J := by
  intro env s _ hs
  obtain ⟨a, t, hrun, hJ⟩ := h env s hs
  refine ⟨fun a' t' hr => ?_, fun e t' he => ?_⟩
  · obtain ⟨h, rfl⟩ := Prod.mk.inj (hr.symm.trans hrun)
    cases h
    exact hJ
  · cases (Prod.mk.inj (he.symm.trans hrun)).1

theorem leads_newBlock {hint : String} : κ.Leads (κ.At true P V U) (newBlock hint) fun b =>
    κ.At true (b :: P) V U := by
  refine leads_of_runs fun env s hs => ?_
  obtain ⟨c, hc⟩ := hs.stand
  exact ⟨_, _, runs_newBlock.mpr ⟨c, hc.current, rfl, rfl⟩,
    hs.opens (Module.opens_newBlock ..) (hs.intact.done c hc.isOpen_current)⟩

theorem leads_end {x : Ssa.Build Unit} {kind : Ssa.BlockKind}
    {controls : List (Option ValueRef) → List (Option ValueRef)} {succs : List BlockRef}
    (hx : Ending x kind controls succs) :
    κ.Leads (κ.At true P V U) (build x) fun _ => κ.At false P V U := by
  refine leads_of_runs fun env s hs => ?_
  obtain ⟨c, hc⟩ := hs.stand
  obtain ⟨m, hrun, he⟩ := hx.run hc.current hc.lt_size hc.isTerminated
  exact ⟨(), _, runs_build.mpr ⟨_, hrun, rfl⟩, hs.closes hc.current (he.closes hx.isEnd)⟩

theorem leads_setInsertPoint : κ.Leads (κ.At false (b :: P) V U) (build (.setInsertPoint b)) fun _ =>
    κ.At true P V U :=
  leads_of_runs fun _ _ hs => ⟨(), _, runs_setInsertPoint.mpr rfl, hs.standingAt⟩

theorem leads_module {Q : Module → LoweringState → Prop} (hQ : ∀ s, I s → Q s.module s) :
    κ.Leads I (build .module) fun m s => Q m s ∧ I s :=
  leads_of_runs fun _ s hs => ⟨_, _, runs_module.mpr ⟨rfl, rfl⟩, hQ s hs, hs⟩

theorem leads_isTerminated : κ.Leads (κ.At o P V U) (build .isTerminated) fun r s =>
    r = !o ∧ κ.At o P V U s := by
  refine leads_of_runs fun env s hs => ?_
  obtain ⟨c, hc⟩ := hs.stand
  exact ⟨_, _, runs_isTerminated.mpr ⟨c, hc.current, rfl, rfl⟩, hc.isTerminated, hs⟩

/-! ## Steady pieces -/

namespace Steady

variable {x : Lowering α} {g : α → Lowering β}

theorem bind (hx : κ.Steady V x) (hg : ∀ a, κ.Steady V (g a)) : κ.Steady V (x >>= g) :=
  fun P U => (hx P U).bind fun a => hg a P U

theorem pure (a : α) : κ.Steady V (pure a) :=
  fun _ _ => .pure fun _ hs => hs

theorem read : κ.Steady V read :=
  fun _ _ => .read fun _ _ _ hs => hs

theorem lift {k : Env → Except Failure α} {P : α → Prop} (hk : ∀ env, Computes (k env) P) :
    κ.Steady V (Lowering.lift k) := by
  intro P U env s _ hs
  refine ⟨fun a t hr => ?_, fun e t he => ?_⟩
  · obtain ⟨-, rfl⟩ := runs_lift.mp hr
    exact hs
  · obtain ⟨hke, rfl⟩ := fails_lift.mp he
    exact ⟨((hk env).allowed e hke).weaken, hs.intact⟩

end Steady

/-- A step of construction that has to do with the current block at most, and makes or ends no
block. -/
theorem steady_of_runs {x : Lowering α}
    (h : ∀ env s c, s.builder.current = some c → (s.module.block c).isTerminated = false →
      ∃ a m, Runs x env s a (s.withModule m) ∧ s.module.Quiet m) : κ.Steady V x := by
  refine fun P U => leads_of_runs fun env s hs => ?_
  obtain ⟨c, hc⟩ := hs.stand
  obtain ⟨a, m, hrun, hq⟩ := h env s c hc.current hc.isTerminated
  exact ⟨a, _, hrun, hs.quiet hq⟩

theorem steady_making {k : Module → α × Module} (hk : ∀ m : Module, m.Quiet (k m).2) :
    κ.Steady V (build (.making k)) :=
  steady_of_runs fun _ s _ _ _ => ⟨_, _, runs_making.mpr ⟨rfl, rfl⟩, hk s.module⟩

theorem steady_declareFunction (name : String) (sig : Ssa.Ty) :
    κ.Steady V (build (.declareFunction name sig)) :=
  steady_making fun m => m.quiet_declareFunction name sig

theorem steady_module : κ.Steady V (build .module) :=
  steady_of_runs fun _ s _ _ _ => ⟨_, s.module, runs_module.mpr ⟨rfl, rfl⟩, .refl _⟩

theorem steady_typeOf (v : ValueRef) : κ.Steady V (build (.typeOf v)) :=
  steady_of_runs fun _ s _ _ _ => ⟨_, s.module, runs_typeOf.mpr ⟨rfl, rfl⟩, .refl _⟩

theorem steady_emit (x : Ssa.Value) : κ.Steady V (build (.emit x)) :=
  steady_of_runs fun _ _ c hc ho =>
    ⟨_, _, runs_emit.mpr ⟨c, hc, ho, rfl, rfl⟩, (Module.emits_newValue ..).quiet⟩

theorem steady_alloca (t : Ssa.Ty) (name : String) : κ.Steady V (build (.alloca t name)) :=
  steady_of_runs fun _ _ c hc _ =>
    ⟨_, _, runs_alloca.mpr ⟨c, hc, rfl, rfl⟩, (Module.emits_newValue ..).quiet⟩

theorem steady_call (f : FuncRef) (args : List ValueRef) : κ.Steady V (build (.call f args)) :=
  steady_of_runs fun _ _ c hc ho =>
    ⟨_, _, runs_call.mpr (runs_emit.mpr ⟨c, hc, ho, rfl, rfl⟩), (Module.emits_newValue ..).quiet⟩

theorem steady_throw {e : Misuse} (he : e.isFlow = false) :
    κ.Steady V (build (throw e : Ssa.Build α)) := by
  intro P U env s _ hs
  refine ⟨fun a t hr => ?_, fun e' t he' => ?_⟩
  · obtain ⟨_, hrun, -⟩ := runs_build.mp hr
    cases hrun
  · obtain ⟨_, hm, rfl, rfl⟩ := fails_build.mp he'
    cases hm
    exact ⟨⟨he, fun _ => rfl⟩, hs.intact⟩

/-- A step of construction that consists of steps. If it fails, nothing has been changed. -/
theorem Steady.build_bind {x : Ssa.Build α} {k : α → Ssa.Build β} (hx : κ.Steady V (build x))
    (hk : ∀ a, κ.Steady V (build (k a))) : κ.Steady V (build (x >>= k)) := by
  intro P U env s _ hs
  obtain ⟨hok, herr⟩ := @hx P U env s trivial hs
  refine ⟨fun b t hr => ?_, fun e t he => ?_⟩
  · obtain ⟨a, u, hxr, hkr⟩ := runs_build_bind.mp hr
    exact (@hk a P U env u trivial (hok a u hxr)).1 b t hkr
  · obtain ⟨m, hm, rfl, rfl⟩ := fails_build.mp he
    refine ⟨?_, hs.intact⟩
    rcases Ssa.Build.run_bind_error.mp hm with hm | ⟨a, y, hy, hm⟩
    · exact (herr _ _ (fails_build.mpr ⟨m, hm, rfl, rfl⟩)).1
    · have hu := hok a _ (runs_build.mpr ⟨y, hy, rfl⟩)
      exact ((@hk a P U env _ trivial hu).2 _ _ (fails_build.mpr ⟨m, hm, rfl, rfl⟩)).1

/-! ## Functions -/

/-- The entry block of function `f` is open, and neither the current block nor one that waits. -/
def Enters (f : FuncRef) (P : List BlockRef) (s : LoweringState) : Prop :=
  ∃ e, (s.module.func f).entry = some e ∧ s.module.IsOpen e ∧
    ∀ c, s.builder.current = some c → (e :: c :: P).Nodup

/-- A function that is defined now has not been accounted for. -/
theorem leads_defineFunction {name : String} {sig : Ssa.Ty} :
    κ.Leads (κ.At true P V U) (build (.defineFunction name sig names)) fun f s =>
      κ.At true P V U s ∧ Enters f P s := by
  intro env s _ hs
  refine ⟨fun f t hr => ?_, fun e t he => ?_⟩
  · obtain ⟨y, hy, rfl⟩ := runs_build.mp hr
    obtain ⟨m, hdef, rfl⟩ := Ssa.Build.run_defineFunction.mp hy
    obtain ⟨hopens, hnone, hentry⟩ := Module.opens_defineFunction? hdef
    have hf : κ.entry f = none := by
      cases hκ : κ.entry f with
      | none => rfl
      | some e => exact absurd (hnone.symm.trans (hs.intact.entry f e hκ)) (by intro h; cases h)
    refine ⟨hs.opensApart hopens hf, _, hentry, hopens.isOpen_new, fun c hc => ?_⟩
    obtain ⟨c', hc'⟩ := hs.stand
    obtain rfl : c' = c := Option.some.inj (hc'.current.symm.trans hc)
    refine nodup_cons.mpr ⟨fun hmem => ?_, hc'.nodup⟩
    exact absurd (hc'.lt_of_mem hmem) (Nat.lt_irrefl _)
  · obtain ⟨m, hm, rfl, rfl⟩ := fails_build.mp he
    obtain rfl := Ssa.Build.eq_of_defineFunction_error hm
    exact ⟨⟨rfl, fun _ => rfl⟩, hs.intact⟩

/-- While the body of another function is lowered, the current block waits. -/
theorem At.enter (h : κ.At true P V U s) (hf : Enters f P s) (hc : s.builder.current = some c) :
    κ.At true (c :: P) V U (s.standingAt ((s.module.func f).entry.getD 0)) := by
  obtain ⟨e, hentry, hopen, hnodup⟩ := hf
  obtain ⟨c', hc'⟩ := h.stand
  obtain rfl : c' = c := Option.some.inj (hc'.current.symm.trans hc)
  rw [hentry]
  refine ⟨⟨h.intact.functions, h.intact.own, h.intact.entry, h.intact.done⟩,
    ⟨e, rfl, hopen.1, hopen.2, hnodup c' hc, fun b hb => ?_, fun b hb hw => ?_⟩,
    h.visible, h.bound⟩
  · rcases mem_cons.mp hb with rfl | hb
    · exact hc'.isOpen_current
    · exact hc'.isOpen b hb
  · exact mem_cons_of_mem _ (hc'.all b hb hw)

/-- Lowering goes elsewhere while the current block waits, and comes back to it. -/
theorem leads_aside {x : Lowering α} {I : LoweringState → Prop}
    (hx : ∀ c, κ.Leads (fun s => s.builder.current = some c ∧ I s) x fun _ =>
      κ.At false (c :: P) V U) (hI : ∀ s, I s → κ.At true P V U s) :
    κ.Leads I (aside x) fun _ => κ.At true P V U := by
  refine Triple.get.bind fun r => ?_
  cases hr : r.builder.current with
  | none =>
    rintro env s _ ⟨rfl, hs⟩
    obtain ⟨c, hc⟩ := (hI _ hs).stand
    exact absurd (hr.symm.trans hc.current) (by intro h; cases h)
  | some c =>
    refine Triple.bind (Triple.before (hx c) fun s hs => ⟨hs.1 ▸ hr, hs.2⟩) fun a => ?_
    refine Triple.bind (Triple.modify fun s hs => ?_) fun _ => .pure fun _ hs => hs
    exact hs.standingAt

/-- A helper function is defined aside. Its body ends all the blocks that it opens. -/
theorem steady_defineHelper {name : String} {sig : Ssa.Ty}
    {body : ValueRef → ValueRef → Lowering Unit}
    (hbody : ∀ x y P U, κ.Leads (κ.At true P V U) (body x y) fun _ => κ.At false P V U) :
    κ.Steady V (defineHelper name sig names body) := by
  intro P U
  refine leads_defineFunction.bind fun f => ?_
  refine (leads_module (Q := fun m s => m = s.module) fun _ _ => rfl).bind fun m => ?_
  refine Triple.bind (leads_aside (fun c => ?_) fun s hs => hs.2.1) fun _ => .pure fun _ hs => hs
  refine Triple.bind (J := fun _ => κ.At true (c :: P) V U) (leads_of_runs ?_) fun _ => hbody ..
  rintro env s ⟨hc, rfl, hs, hf⟩
  exact ⟨(), _, runs_setInsertPoint.mpr rfl, hs.enter hf hc⟩

end Scene

end Lowering

end SsaCompiler
