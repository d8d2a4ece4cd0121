import SsaCompiler.Proofs.Lowering.Ensures
import SsaCompiler.Proofs.Lowering.Layout

/-!
# Operations

Two things are true of a piece of lowering that computes a value. It starts in an open block and ends
in an open block, and leaves the other open blocks as they are. And what it hands on may be used. Here
both are said of the single operations that lowering consists of, as instances: what a sequence of
operations does is then found by search.
-/

namespace SsaCompiler.Lowering

open List
open Ssa (ValueRef BlockRef FuncRef Value)

variable {κ : Scene} {V U : List Nat} {P Q : List BlockRef} {Γ Δ : List Item} {α β : Type}
  {x y : ValueRef} {o : Ssa.Op}

/-! ## Pieces of lowering -/

namespace Scene

/-- A piece of lowering leads from where `I` is true to where `J` is true of its result. If operands
are accounted for and the items of `Γ` are there, it hands on those that `g` lists. -/
class Passes (κ : Scene) (I : LoweringState → Prop) (Γ : List Item) (x : Lowering α)
    (J : α → LoweringState → Prop) (g : α → List Item) : Prop where
  leads : κ.Leads I x J
  ensures : κ.whole → Ensures κ.functions Γ x g

/-- A step of which it is known what it leads to and hands on. -/
class Does (κ : Scene) (I : LoweringState → Prop) (Γ : List Item) (x : Lowering α)
    (J : outParam (α → LoweringState → Prop)) (g : outParam (α → List Item)) : Prop extends
    Passes κ I Γ x J g

/-- A step that leaves the open blocks and the variables as they are, and hands on items. -/
abbrev Yields (κ : Scene) (V : List Nat) (Γ : List Item) (x : Lowering α) (g : α → List Item) :
    Prop :=
  ∀ P U, κ.Does (κ.At true P V U) Γ x (fun _ => κ.At true P V U) g

/-- A step that computes a value. -/
abbrev Gains (κ : Scene) (V : List Nat) (Γ : List Item) (x : Lowering ValueRef) : Prop :=
  κ.Yields V Γ x fun a => [.value a]

section

variable {x y : Lowering α} {f : α → Lowering β} {I I' : LoweringState → Prop}
  {J J' : α → LoweringState → Prop} {K : β → LoweringState → Prop} {g : α → List Item}
  {h : β → List Item}

namespace Passes

theorem bind (hx : κ.Passes I Γ x J g) (hf : ∀ a, κ.Passes (J a) (g a ++ Γ) (f a) K h) :
    κ.Passes I Γ (x >>= f) K h :=
  ⟨hx.leads.bind fun a => (hf a).leads, fun hw =>
    (hx.ensures hw).bind fun a => (hf a).ensures hw⟩

theorem next [hx : κ.Does I Γ x J g] (hf : ∀ a, κ.Passes (J a) (g a ++ Γ) (f a) K h) :
    κ.Passes I Γ (x >>= f) K h :=
  hx.bind hf

instance [κ.Does I Γ x J g] [hf : ∀ a, κ.Passes (J a) (g a ++ Γ) (f a) K h] :
    κ.Passes I Γ (x >>= f) K h :=
  next hf

instance {a : α} [hf : κ.Passes I Γ (f a) K h] : κ.Passes I Γ (pure a >>= f) K h := by
  exact hf

instance {c : Prop} [Decidable c] [hx : κ.Passes I Γ x J g] [hy : κ.Passes I Γ y J g] :
    κ.Passes I Γ (if c then x else y) J g := by
  split
  · exact hx
  · exact hy

theorem pure {a : α} [TellsAll Γ (g a)] (hJ : ∀ s, I s → J a s) : κ.Passes I Γ (pure a) J g :=
  ⟨.pure hJ, fun _ => .pure⟩

instance {a : α} [TellsAll Γ (g a)] : κ.Passes I Γ (Pure.pure a) (fun _ => I) g :=
  pure fun _ hs => hs

theorem fail {d : Defect} {o : Bool} (hd : Failure.Allowed κ.strict (.internal d)) :
    κ.Passes (κ.At o P V U) Γ (Lowering.fail d : Lowering α) J g :=
  ⟨leads_fail hd fun _ hs => hs.intact, fun _ => .fail⟩

section

variable (hx : κ.Passes I Γ x J g)

include hx

/-- What is true before may be used to say what is true afterwards. -/
theorem adapt
    (hI : ∀ s, I' s → I s ∧ ∀ a t, J a t → J' a t) : κ.Passes I' Γ x J' g := by
  refine ⟨fun env s _ hs => ?_, hx.ensures⟩
  obtain ⟨hs, hJ⟩ := hI s hs
  obtain ⟨hok, herr⟩ := hx.leads trivial hs
  exact ⟨fun a t hr => hJ a t (hok a t hr), herr⟩

theorem before (hI : ∀ s, I' s → I s) : κ.Passes I' Γ x J g :=
  hx.adapt fun s hs => ⟨hI s hs, fun _ _ ht => ht⟩

theorem after (hJ : ∀ a s, J a s → J' a s) : κ.Passes I Γ x J' g :=
  hx.adapt fun _ hs => ⟨hs, hJ⟩

theorem weaken (hΓ : Γ ⊆ Δ) : κ.Passes I Δ x J g :=
  ⟨hx.leads, fun hw => (hx.ensures hw).weaken hΓ fun _ => List.Subset.refl _⟩

end

theorem anywhere (hx : κ.Passes I [] x J g) : κ.Passes I Γ x J g :=
  hx.weaken (nil_subset _)

end Passes

namespace Yields

theorem mk (hs : κ.Steady V x) (he : κ.whole → Ensures κ.functions Γ x g) : κ.Yields V Γ x g :=
  fun P U => { leads := hs P U, ensures := he }

/-- A piece of lowering that goes through other blocks, and is back in an open one. -/
theorem of (hx : ∀ P U, κ.Passes (κ.At true P V U) Γ x (fun _ => κ.At true P V U) g) :
    κ.Yields V Γ x g :=
  fun P U => { hx P U with }

theorem steady (hx : κ.Yields V Γ x g) : κ.Steady V x :=
  fun P U => (hx P U).leads

theorem ensures (hx : κ.Yields V Γ x g) (hw : κ.whole) : Ensures κ.functions Γ x g :=
  (hx [] []).ensures hw

end Yields

end

end Scene

open Scene

instance yields_read : κ.Yields V Γ read fun _ => [] :=
  .mk .read fun _ => ensures_read fun _ => rfl

theorem yields_lift {k : Env → Except Failure Ssa.Ty}
    (hk : ∀ env, Computes (k env) Ssa.Ty.Standard) : κ.Yields V Γ (lift k) fun t => [.type t] :=
  .mk (.lift hk) fun _ => ensures_lift fun env t _ ht => holds_singleton ((hk env).result t ht)

instance {k : Env → Except Failure Ssa.Ty} [hk : ∀ env, Computes (k env) Ssa.Ty.Standard] :
    κ.Yields V Γ (lift k) fun t => [.type t] :=
  yields_lift hk

/-! ## Types of known width -/

instance {p : Primitive} : Tells Γ (.type p.machineType) :=
  ⟨fun _ => p.machineType_standard⟩

instance : Tells Γ (.type .void) :=
  ⟨fun _ => rfl⟩

instance : Tells Γ (.type bytePtr) :=
  ⟨fun _ => rfl⟩

instance : Tells Γ (.type .double) :=
  ⟨fun _ => rfl⟩

instance : Tells Γ (.type (.int 1)) :=
  ⟨fun _ => rfl⟩

instance : Tells Γ (.type (.int 32)) :=
  ⟨fun _ => rfl⟩

instance : Tells Γ (.type (.int 64)) :=
  ⟨fun _ => rfl⟩

section

variable {t : Ssa.Ty} {b : BlockRef} {z : ValueRef} {name : String}

/-! ## Constants and slots -/

theorem gains_const {v : Value} [ht : Tells Γ (.type v.type)] (hargs : v.args = [])
    (hop : v.op.isConst) (hother : v.op.neverInt → v.type.isInt = false) :
    κ.Gains V Γ (build (.making (·.addConst v))) := by
  refine .mk (steady_making fun m => (m.emits_addConst v).quiet) fun _ =>
    ensures_const (fun m hΓ => ?_) ?_
  · refine ⟨ht.holds hΓ, fun a ha => ?_, fun _ => ?_, fun _ => hother, fun hc => ?_⟩
    · rw [hargs] at ha
      exact absurd ha not_mem_nil
    · unfold Ssa.Takes
      cases hv : v.op <;> rw [hv] at hop <;> trivial
    · rw [hc] at hop
      exact absurd hop Bool.false_ne_true
  · intro hc
    rw [hc] at hop
    exact absurd hop Bool.false_ne_true

instance gains_constInt {n : Int} [Tells Γ (.type t)] : κ.Gains V Γ (build (.constInt t n)) :=
  gains_const rfl rfl fun h => absurd h Bool.false_ne_true

instance gains_constFloat {bits : UInt64} [Tells Γ (.type t)] [hint : Known (t.isInt = false)] :
    κ.Gains V Γ (build (.constFloat t bits)) :=
  gains_const rfl rfl fun _ => hint.holds

instance gains_constNull [Tells Γ (.type t)] : κ.Gains V Γ (build (.constNull t)) :=
  gains_const rfl rfl fun h => absurd h Bool.false_ne_true

instance gains_globalString {data : String} : κ.Gains V Γ (build (.globalString name data)) :=
  .mk (steady_making fun m => m.quiet_globalString name data) fun _ => ensures_globalString

instance gains_alloca [Tells Γ (.type t)] : κ.Gains V Γ (build (.alloca t name)) :=
  .mk (steady_alloca t name) fun _ => ensures_alloca

/-! ## Operations -/

instance yields_typeOf [Tells Γ (.value x)] :
    κ.Yields V Γ (build (.typeOf x)) fun t => [.typed x t, .type t] :=
  .mk (steady_typeOf x) fun _ => ensures_typeOf

theorem gains_emit {v : Value} (hv : ∀ m, Holds m Γ → v.Fits m) (hop : v.op ≠ .call) :
    κ.Gains V Γ (build (.emit v)) :=
  .mk (steady_emit v) fun _ => ensures_emit hv hop

theorem gains_op {o : Ssa.Op} {xs : List ValueRef} (ht : ∀ m, Holds m Γ → t.Standard)
    [hxs : TellsAll Γ (xs.map .value)] (ho : o ≠ .call)
    (hother : o.isVerified = false → o.neverInt → t.isInt = false)
    (htakes : o.isVerified = false → ∀ m, Holds m Γ → Ssa.Takes m.resultOf
      { op := o, type := t, args := xs.map some } (xs.map fun a => some (m.typeOf a))) :
    κ.Gains V Γ (build (.op o t xs)) := by
  refine gains_emit (fun m hΓ => ⟨ht m hΓ, fun a ha => ?_, fun hv => ?_, hother,
    fun hc => absurd hc ho⟩) ho
  · obtain ⟨b, hb, hab⟩ := mem_map.mp ha
    exact Option.some.inj hab ▸ hxs.isOperand hΓ b hb
  · have h := htakes hv m hΓ
    rw [map_map]
    exact h

/-- Of operations that are verified, construction sees to the operands only. -/
theorem gains_verified {xs : List ValueRef} [ht : Tells Γ (.type t)] [TellsAll Γ (xs.map .value)]
    (ho : o.isVerified) : κ.Gains V Γ (build (.op o t xs)) := by
  have hfalse : ∀ {p : Prop}, o.isVerified = false → p := fun h =>
    absurd (ho.symm.trans h) (by decide)
  refine gains_op (fun _ => ht.holds) ?_ (fun h => hfalse h) fun h => hfalse h
  rintro rfl
  exact absurd ho Bool.false_ne_true

/-- A step of construction that looks at the type of an operand first. -/
theorem Scene.Yields.ofType {k : Ssa.Ty → Ssa.Build β} [Tells Γ (.value x)]
    (hk : ∀ t, κ.Yields V ([.typed x t, .type t] ++ Γ) (build (k t)) h) :
    κ.Yields V Γ (build (Ssa.Build.typeOf x >>= k)) h :=
  .mk ((steady_typeOf x).build_bind fun t => (hk t).steady) fun hw =>
    Ensures.build_bind ensures_typeOf fun t => (hk t).ensures hw

theorem Scene.Yields.build_pure {a : α} [TellsAll Γ (g a)] : κ.Yields V Γ (build (pure a)) g :=
  .mk (steady_of_runs fun _ s _ _ _ =>
    ⟨a, s.module, runs_build_pure.mpr ⟨rfl, rfl⟩, .refl _⟩) fun _ => .build_pure

theorem Scene.Yields.unit {y : Ssa.Build α} (hy : κ.Yields V Γ (build y) g) :
    κ.Yields V Γ (build (y >>= fun _ => pure ())) fun _ => [] :=
  .mk (hy.steady.build_bind fun _ => (build_pure (g := fun _ => []) (Γ := [])).steady) fun hw =>
    (hy.ensures hw).build_bind fun _ => .build_pure

instance gains_allocaMany [ht : Tells Γ (.type t)] [hx : Tells Γ (.value x)] :
    κ.Gains V Γ (build (.allocaMany t x name)) := by
  refine gains_emit (fun m hΓ => ⟨Ssa.Ty.standard_pointer.mpr (ht.holds hΓ), fun a ha => ?_,
    fun _ => rfl, fun _ _ => rfl, fun hc => nomatch hc⟩) (by intro h; cases h)
  exact Option.some.inj (mem_singleton.mp ha) ▸ hx.holds hΓ

instance gains_heap [ht : Tells Γ (.type t)] : κ.Gains V Γ (build (.malloc t)) :=
  gains_emit (fun _ hΓ => ⟨Ssa.Ty.standard_pointer.mpr (ht.holds hΓ),
    fun _ ha => absurd ha not_mem_nil, fun _ => trivial, fun _ _ => rfl,
    fun hc => nomatch hc⟩) (by intro h; cases h)

instance yields_free [Tells Γ (.value x)] : κ.Yields V Γ (build (.free x)) fun _ => [] :=
  .unit (gains_op (fun _ _ => rfl) (by intro h; cases h) (fun _ h => absurd h Bool.false_ne_true)
    fun _ _ _ => trivial)

instance yields_store [Tells Γ (.value x)] [Tells Γ (.value y)] :
    κ.Yields V Γ (build (.store x y)) fun _ => [] :=
  .unit (gains_verified rfl)

/-- What a value of a known type points to is of known width. -/
instance : Tells ([.typed x t, .type t] ++ Γ) (.type (t.elem?.getD .void)) :=
  ⟨fun h => Ssa.Ty.Standard.elem_getD (h (.type t) (by simp))⟩

instance gains_load [Tells Γ (.value x)] : κ.Gains V Γ (build (.load x)) :=
  .ofType fun _ => gains_verified rfl

instance gains_elementPtr [Tells Γ (.value x)] [Tells Γ (.value y)] :
    κ.Gains V Γ (build (.elementPtr x y)) := by
  refine .ofType fun t => gains_op (fun m hΓ => ?_) (by intro h; cases h) (fun _ _ => rfl)
    fun _ _ _ => trivial
  have ht : t.Standard := hΓ (.type t) (by simp)
  refine Ssa.Ty.standard_pointer.mpr ?_
  split
  next n u helem => exact Ssa.Ty.Standard.elem (helem ▸ ht.elem_getD) rfl
  next => exact ht.elem_getD

/-- A field that does not exist is no mistake about blocks. -/
instance gains_fieldPtr {i : Nat} [hx : Tells Γ (.value x)] :
    κ.Gains V Γ (build (.fieldPtr x i)) := by
  refine .ofType fun t => ?_
  dsimp only
  split
  next u hu =>
    refine gains_emit (fun m hΓ => ?_) (by intro h; cases h)
    have ht : t.Standard := hΓ (.type t) (by simp)
    have hu := ht.elem_getD.fields (mem_of_getElem? hu)
    refine ⟨Ssa.Ty.standard_pointer.mpr hu, fun a ha => ?_, fun _ => trivial, fun _ _ => rfl,
      fun hc => nomatch hc⟩
    exact Option.some.inj (mem_singleton.mp ha) ▸
      hx.holds fun i hi => hΓ i (mem_append_right _ hi)
  next =>
    refine .mk (steady_throw rfl) fun _ env s a u _ _ hr => ?_
    obtain ⟨_, hrun, -⟩ := runs_build.mp hr
    exact nomatch hrun

/-- Conversions from and to floating-point numbers take what they get. -/
theorem gains_convert [ht : Tells Γ (.type t)] [Tells Γ (.value x)]
    (ho : o = .fpToSi ∨ o = .siToFp ∨ o = .fpTrunc ∨ o = .fpExt)
    (hother : o.neverInt → t.isInt = false) : κ.Gains V Γ (build (.convert o x t)) := by
  refine gains_op (fun _ => ht.holds) ?_ (fun _ => hother) fun _ _ _ => ?_
  · rintro rfl
    simp at ho
  · rcases ho with rfl | rfl | rfl | rfl <;> trivial

/-- Between integers, a conversion is chosen by their widths. -/
instance gains_intCast [ht : Tells Γ (.type t)] [Tells Γ (.value x)] :
    κ.Gains V Γ (build (.intCast x t)) := by
  refine .ofType fun u => ?_
  have hcast : ∀ {o : Ssa.Op}, o ≠ .call → o.neverInt = false →
      (∀ result, Ssa.Takes result { op := o, type := t, args := [some x] } [some u]) →
      κ.Gains V ([.typed x u, .type u] ++ Γ) (build (.convert o x t)) := by
    intro o hcall hint htakes
    refine gains_op (fun _ hΓ => ht.holds fun i hi => hΓ i (mem_append_right _ hi)) hcall
      (fun _ h => absurd (hint.symm.trans h) Bool.false_ne_true) fun _ m hΓ => ?_
    have htype : m.typeOf x = u := (hΓ (.typed x u) (by simp)).2
    show Ssa.Takes _ _ [some (m.typeOf x)]
    rw [htype]
    exact htakes _
  dsimp only
  split
  next hlt => exact hcast (by intro h; cases h) rfl fun _ => ⟨u, rfl, hlt⟩
  next =>
    split
    next h1 =>
      have hu : u = .int 1 := by
        cases u with
        | int n => exact congrArg _ (eq_of_beq h1)
        | _ => exact absurd h1 Bool.false_ne_true
      exact hcast (by intro h; cases h) rfl fun _ => congrArg (fun u => [some u]) hu
    next =>
      split
      next hlt => exact hcast (by intro h; cases h) rfl fun _ => ⟨u, rfl, hlt⟩
      next => exact .build_pure

theorem gains_unary [Tells Γ (.value x)] (ho : o = .neg ∨ o = .not) :
    κ.Gains V Γ (build (.unary o x)) := by
  refine .ofType fun t => gains_op (fun _ hΓ => hΓ (.type t) (by simp)) ?_ ?_ fun _ m hΓ => ?_
  · rintro rfl
    simp at ho
  · rcases ho with rfl | rfl <;> exact fun _ h => absurd h Bool.false_ne_true
  · have htype : m.typeOf x = t := (hΓ (.typed x t) (by simp)).2
    show Ssa.Takes _ _ [some (m.typeOf x)]
    rw [htype]
    rcases ho with rfl | rfl <;> rfl

instance gains_binary {o : Ssa.Op} [Tells Γ (.value x)] [Tells Γ (.value y)]
    [ho : Known o.isVerified] : κ.Gains V Γ (build (.binary o x y)) :=
  .ofType fun _ => gains_verified ho.holds

instance gains_select [Tells Γ (.value z)] [Tells Γ (.value x)] [Tells Γ (.value y)] :
    κ.Gains V Γ (build (.select z x y)) :=
  .ofType fun _ => gains_verified rfl

/-- A comparison, of which verification sees to the types of the operands. -/
theorem gains_comparison {n : Int} [hx : Tells Γ (.value x)] [hy : Tells Γ (.value y)]
    (ho : o = .icmp ∨ o = .fcmp) : κ.Gains V Γ
      (build (.emit { op := o, type := .int 1, args := [some x, some y], auxInt := n })) := by
  refine gains_emit (fun m hΓ => ⟨rfl, fun a ha => ?_, ?_, ?_, ?_⟩) ?_
  · rcases mem_pair.mp ha with h | h
    · exact Option.some.inj h ▸ hx.holds hΓ
    · exact Option.some.inj h ▸ hy.holds hΓ
  all_goals rcases ho with rfl | rfl
  · exact fun h => absurd h.symm Bool.false_ne_true
  · exact fun _ => trivial
  · exact fun _ h => absurd h Bool.false_ne_true
  · exact fun _ h => absurd h Bool.false_ne_true
  all_goals
    intro h
    cases h

instance gains_icmp {p : Ssa.IntPredicate} [Tells Γ (.value x)] [Tells Γ (.value y)] :
    κ.Gains V Γ (build (.icmp p x y)) :=
  gains_comparison (.inl rfl)

instance gains_fcmp {p : Ssa.FloatPredicate} [Tells Γ (.value x)] [Tells Γ (.value y)] :
    κ.Gains V Γ (build (.fcmp p x y)) :=
  gains_comparison (.inr rfl)

/-! ## Functions -/

instance yields_callRuntime {f : FuncRef} {xs : List ValueRef} [Tells Γ (.func f)]
    [TellsAll Γ (xs.map .value)] : κ.Yields V Γ (build (.call f xs)) fun _ => [] :=
  .mk (steady_call f xs) fun _ => ensures_callRuntime

instance gains_call {f : FuncRef} {xs : List ValueRef} [Tells Γ (.body f)]
    [TellsAll Γ (xs.map .value)] : κ.Gains V Γ (build (.call f xs)) :=
  .mk (steady_call f xs) fun _ => ensures_call

theorem yields_declareFunction (ht : t.Standard) (hrun : Ssa.IsRuntime { name := name, sig := t }) :
    κ.Yields V Γ (build (.declareFunction name t)) fun f => [.func f] :=
  .mk (steady_declareFunction name t) fun _ => ensures_declareFunction ht hrun

/-! ## Blocks -/

instance passes_newBlock {hint : String} : κ.Does (κ.At true P V U) Γ (newBlock hint)
    (fun b => κ.At true (b :: P) V U) fun b => [.block b] where
  leads := leads_newBlock
  ensures _ := ensures_newBlock

instance passes_setInsertPoint [Tells Γ (.block b)] [hb : Picks b P Q] :
    κ.Does (κ.At false P V U) Γ (build (.setInsertPoint b)) (fun _ => κ.At true Q V U)
      fun _ => [] where
  leads := Triple.before leads_setInsertPoint fun _ hs => hs.perm hb.perm
  ensures _ := ensures_setInsertPoint

theorem passes_end {w : Ssa.Build Unit} {kind : Ssa.BlockKind}
    {controls : List (Option ValueRef) → List (Option ValueRef)} {succs : List BlockRef}
    (hw : Ending w kind controls succs)
    (hcs : ∀ cs a, some a ∈ controls cs → some a ∈ cs ∨ Tells Γ (.value a)) :
    κ.Does (κ.At true P V U) Γ (build w) (fun _ => κ.At false P V U) fun _ => [] where
  leads := leads_end hw
  ensures _ := ensures_end hw hcs

instance passes_br : κ.Does (κ.At true P V U) Γ (build (.br b)) (fun _ => κ.At false P V U)
    fun _ => [] :=
  passes_end (ending_br b) fun _ _ => .inl

instance passes_condBr {yes no : BlockRef} [hx : Tells Γ (.value x)] :
    κ.Does (κ.At true P V U) Γ (build (.condBr x yes no)) (fun _ => κ.At false P V U)
      fun _ => [] :=
  passes_end (ending_condBr x yes no) (by simp [hx])

instance passes_ret [hx : Tells Γ (.value x)] : κ.Does (κ.At true P V U) Γ
    (build (.ret (some x))) (fun _ => κ.At false P V U) fun _ => [] :=
  passes_end (ending_ret (some x)) (by simp [hx])

instance passes_retVoid : κ.Does (κ.At true P V U) Γ (build .retVoid)
    (fun _ => κ.At false P V U) fun _ => [] :=
  passes_end ending_retVoid fun _ _ => .inl

end

end SsaCompiler.Lowering
