import SsaCompiler.Proofs.Core.Sound
import SsaCompiler.Proofs.Lowering.Construction

/-!
# Stages of lowering

While a sound expression or statement is lowered, code goes to the current block, slots go to the
entry block, and some blocks wait: they have been made, they are still empty, and lowering will go on
in them later. `Stage` says which blocks wait. `Steps` says of a piece of lowering which blocks wait
in front of it and behind it, how many slots it makes at most, and that it touches nothing else that
was there before. What a sequence of steps does is found by search.
-/

namespace SsaCompiler.Lowering

open List
open Ssa (ValueRef BlockRef FuncRef Module)
open Core (ExprTy Var)

variable {env : Env} {s t u : LoweringState} {f : FuncRef} {e a b c d : BlockRef}
  {r v x y z : ValueRef} {j k : Nat} {p q : Primitive} {P P' P'' : List BlockRef}
  {fs : List MethodFunc}

/-- What was lowered earlier is still there. -/
structure Extends (s t : LoweringState) : Prop where
  grows : Module.Grows s.module t.module
  storage : ∀ id x, s.storage.lookup id = some x → t.storage.lookup id = some x
  functions : t.functions = s.functions

namespace Extends

theorem refl (s : LoweringState) : Extends s s :=
  ⟨.refl _, fun _ _ => id, rfl⟩

theorem trans (h : Extends s t) (k : Extends t u) : Extends s u :=
  ⟨h.grows.trans k.grows, fun id x hx => k.storage id x (h.storage id x hx),
    k.functions.trans h.functions⟩

theorem of_adds (h : Adds f e b s d t n) : Extends s t :=
  ⟨h.grows, h.storage, h.functions⟩

theorem moved (h : Extends s t) : Extends s (t.standingAt b) :=
  ⟨h.grows, h.storage, h.functions⟩

theorem unmoved (h : Extends s t) : Extends (s.standingAt b) t :=
  ⟨h.grows, h.storage, h.functions⟩

end Extends

/-! ## Blocks that wait -/

/-- Lowering stands in block `c`, and the blocks of `P` wait. -/
structure Stage (f : FuncRef) (e c : BlockRef) (P : List BlockRef) (s : LoweringState) : Prop where
  stands : Stands f e c s
  waits : ∀ a ∈ P, Empty f e a s
  nodup : (c :: P).Nodup

/-- Code has been added between two stages, with at most `k` slots. -/
structure Leads (f : FuncRef) (e c : BlockRef) (P : List BlockRef) (s : LoweringState) (d : BlockRef)
    (P' : List BlockRef) (t : LoweringState) (k : Nat) : Prop where
  stage : Stage f e d P' t
  ext : Extends s t
  near : ∀ a ∈ d :: P', a ∈ c :: P ∨ s.module.blocks.size ≤ a
  others : ∀ a < s.module.blocks.size, a ≠ e → a ∉ c :: P →
    (t.module.block a).Like (s.module.block a)
  slots : t.module.slotCount e ≤ s.module.slotCount e + k

theorem Leads.trans (h : Leads f e c P s d P' t k) (h' : Leads f e d P' t b P'' u j) :
    Leads f e c P s b P'' u (k + j) := by
  have hblocks := h.ext.grows.blocks
  refine ⟨h'.stage, h.ext.trans h'.ext, fun a ha => ?_, fun a ha hae hac => ?_, ?_⟩
  · rcases h'.near a ha with ha | ha
    · exact h.near a ha
    · exact .inr (Nat.le_trans hblocks ha)
  · -- a block that was there before is neither current nor waiting in between
    have had : a ∉ d :: P' := fun hmem =>
      (h.near a hmem).elim hac fun hle => Nat.lt_irrefl _ (Nat.lt_of_lt_of_le ha hle)
    exact (h'.others a (Nat.lt_of_lt_of_le ha hblocks) hae had).trans (h.others a ha hae hac)
  · have := h.slots
    have := h'.slots
    omega

/-- If no blocks wait, only the current block matters. -/
theorem Leads.adds (h : Leads f e c [] s d [] t k) : Adds f e c s d t k where
  stands := h.stage.stands
  near := (h.near d mem_cons_self).imp mem_singleton.mp id
  grows := h.ext.grows
  others a ha hae hac := h.others a ha hae fun hmem => hac (mem_singleton.mp hmem)
  functions := h.ext.functions
  storage := h.ext.storage
  slots := h.slots

namespace Stage

section

variable (h : Stage f e c P s)

include h

theorem ne (ha : a ∈ P) : a ≠ c := fun hac =>
  (nodup_cons.mp h.nodup).1 (hac ▸ ha)

theorem perm (hp : P.Perm P') : Stage f e c P' s :=
  ⟨h.stands, fun a ha => h.waits a (hp.mem_iff.mpr ha), (hp.cons c).nodup_iff.mp h.nodup⟩

theorem adds (ha : Adds f e c s d t k) : Leads f e c P s d P t k := by
  refine ⟨⟨ha.stands, fun a hmem => ha.empty (h.waits a hmem) (h.ne hmem), ?_⟩, .of_adds ha,
    fun a hmem => ?_, fun a hlt hae hac => ha.others a hlt hae fun hb => hac (hb ▸ mem_cons_self),
    ha.slots⟩
  · refine nodup_cons.mpr ⟨fun hmem => ?_, (nodup_cons.mp h.nodup).2⟩
    rcases ha.near with rfl | hd
    · exact h.ne hmem rfl
    · exact Nat.lt_irrefl _ (Nat.lt_of_lt_of_le (h.waits d hmem).bound hd)
  · rcases mem_cons.mp hmem with rfl | hmem
    · rcases ha.near with rfl | hd
      · exact .inl mem_cons_self
      · exact .inr hd
    · exact .inl (mem_cons_of_mem c hmem)

theorem blocked (hd : Blocked f e c s d t) :
    Leads f e c P s c (d :: P) t 0 := by
  have hl := h.adds hd.adds
  have hnew : d ∉ c :: P := fun hmem => by
    rcases mem_cons.mp hmem with hdc | hmem
    · exact hd.ne_of_lt h.stands.bound hdc
    · exact hd.ne_of_lt (h.waits d hmem).bound rfl
  refine ⟨⟨hl.stage.stands, ?_, ?_⟩, hl.ext, fun a hmem => ?_, hl.others, hl.slots⟩
  · exact forall_mem_cons.mpr ⟨hd.empty, hl.stage.waits⟩
  · exact (List.Perm.swap ..).nodup_iff.mp (nodup_cons.mpr ⟨hnew, h.nodup⟩)
  · rcases mem_cons.mp ((List.Perm.swap ..).mem_iff.mp hmem) with rfl | hmem
    · exact .inr (Nat.le_of_eq hd.ref.symm)
    · exact .inl hmem

theorem enter (hp : P.Perm (a :: P')) :
    Leads f e c P s a P' (s.standingAt a) 0 := by
  have h' := h.perm hp
  refine ⟨⟨(h'.waits a mem_cons_self).stands h.stands, fun d hd => ?_,
    (nodup_cons.mp h'.nodup).2⟩, ⟨.refl _, fun _ _ => id, rfl⟩, fun d hd => ?_,
    fun _ _ _ _ => .refl _, Nat.le_refl _⟩
  · exact (h'.waits d (mem_cons_of_mem a hd)).moved
  · exact .inl (mem_cons_of_mem c (hp.mem_iff.mpr hd))

end

end Stage

/-! ## Pieces of lowering -/

section

variable {α β : Type} {g : α → Lowering β} {m m' : Lowering α} {Q : α → List BlockRef}
  {R : β → List BlockRef}

/-- Wherever a computation is carried out, the blocks of `P` wait in front of it and those of `Q`
behind it, and it makes at most `k` slots. -/
class Steps (env : Env) (fs : List MethodFunc) (P : List BlockRef) (m : Lowering α)
    (Q : outParam (α → List BlockRef)) (k : outParam Nat) : Prop where
  leads : ∀ ⦃f e c s a t⦄, Stage f e c P s → s.functions = fs → Runs m env s a t →
    ∃ d, Leads f e c P s d (Q a) t k

/-- A computation that lets all blocks wait and makes at most `k` slots. -/
abbrev Lowers (fs : List MethodFunc) (m : Lowering α) (k : Nat) : Prop :=
  ∀ env P, Steps env fs P m (fun _ => P) k

namespace Steps

theorem next [hm : Steps env fs P m Q k] (hg : ∀ a, Steps env fs (Q a) (g a) R j) :
    Steps env fs P (m >>= g) R (k + j) where
  leads f e c s b t h hfs hr := by
    obtain ⟨a, u, hm', hr⟩ := runs_bind.mp hr
    obtain ⟨d, hl⟩ := hm.leads h hfs hm'
    obtain ⟨d', hl'⟩ := (hg a).leads hl.stage (hl.ext.functions.trans hfs) hr
    exact ⟨d', hl.trans hl'⟩

instance [Steps env fs P m Q k] [hg : ∀ a, Steps env fs (Q a) (g a) R j] :
    Steps env fs P (m >>= g) R (k + j) :=
  next hg

theorem of_runs (hm : Steps env fs P m Q k)
    (h : ∀ ⦃s a t⦄, Runs m' env s a t → Runs m env s a t) : Steps env fs P m' Q k where
  leads _ _ _ _ _ _ hs hfs hr := hm.leads hs hfs (h hr)

theorem perm (hm : Steps env fs P' m Q k) (hp : P.Perm P') : Steps env fs P m Q k where
  leads _ _ c _ _ _ hs hfs hr := by
    obtain ⟨d, hl⟩ := hm.leads (hs.perm hp) hfs hr
    have hmem : ∀ a, a ∈ c :: P ↔ a ∈ c :: P' := fun a => (hp.cons c).mem_iff
    exact ⟨d, hl.stage, hl.ext, fun a ha => (hl.near a ha).imp (hmem a).mpr id,
      fun a ha hae hac => hl.others a ha hae fun h => hac ((hmem a).mpr h), hl.slots⟩

theorem mono (hm : Steps env fs P m Q k) (hk : k ≤ j) : Steps env fs P m Q j where
  leads _ _ _ _ _ _ hs hfs hr := by
    obtain ⟨d, hl⟩ := hm.leads hs hfs hr
    exact ⟨d, { hl with slots := Nat.le_trans hl.slots (Nat.add_le_add_left hk _) }⟩

theorem of_adds (h : ∀ ⦃f e b s a t⦄, Stands f e b s → Runs m env s a t → Adds f e b s b t k) :
    Steps env fs P m (fun _ => P) k where
  leads _ _ b _ _ _ hs _ hr := ⟨b, hs.adds (h hs.stands hr)⟩

theorem still (h : ∀ ⦃s a t⦄, s.functions = fs → Runs m env s a t → t = s) :
    Steps env fs P m (fun _ => P) 0 where
  leads _ _ b _ _ _ hs hfs hr := by
    obtain rfl := h hfs hr
    exact ⟨b, hs.adds (.refl hs.stands)⟩

theorem pure {a : α} (hQ : Q a = P) : Steps env fs P (pure a) Q 0 where
  leads _ _ b s r t hs _ hr := by
    obtain ⟨rfl, rfl⟩ := runs_pure.mp hr
    exact ⟨b, hQ ▸ hs.adds (.refl hs.stands)⟩

instance {a : α} : Steps env fs P (Pure.pure a : Lowering α) (fun _ => P) 0 :=
  pure rfl

instance {i : Prop} [Decidable i] [hm : Steps env fs P m Q k] [hm' : Steps env fs P m' Q j] :
    Steps env fs P (if i then m else m') Q (max k j) := by
  split
  · exact hm.mono (Nat.le_max_left k j)
  · exact hm'.mono (Nat.le_max_right k j)

end Steps

theorem Lowers.of [h : ∀ env P, Steps env fs P m (fun _ => P) j] (hk : j ≤ k) : Lowers fs m k :=
  fun env P => (h env P).mono hk

theorem Lowers.adds {y : α} (hm : Lowers fs m k) (h : Stands f e b s) (hfs : s.functions = fs)
    (hr : Runs m env s y t) : ∃ d, Adds f e b s d t k := by
  have hstage : Stage f e b [] s :=
    ⟨h, forall_mem_nil _, by simp⟩
  obtain ⟨d, hl⟩ := (hm env []).leads hstage hfs hr
  exact ⟨d, hl.adds⟩

/-- Every run of a computation extends what there was. -/
class Expands (env : Env) (fs : List MethodFunc) (P : List BlockRef) (m : Lowering α) : Prop where
  ext : ∀ ⦃f e c s a t⦄, Stage f e c P s → s.functions = fs → Runs m env s a t → Extends s t

instance [hm : Steps env fs P m Q k] : Expands env fs P m where
  ext _ _ _ _ _ _ h hfs hr := (hm.leads h hfs hr).choose_spec.ext

instance [hm : Steps env fs P m Q k] [hg : ∀ a, Expands env fs (Q a) (g a)] :
    Expands env fs P (m >>= g) where
  ext f e c s b t h hfs hr := by
    obtain ⟨a, u, hm', hr⟩ := runs_bind.mp hr
    obtain ⟨d, hl⟩ := hm.leads h hfs hm'
    exact hl.ext.trans ((hg a).ext hl.stage (hl.ext.functions.trans hfs) hr)

end

/-! ## Single steps -/

instance {hint : String} : Steps env fs P (newBlock hint) (fun d => d :: P) 0 where
  leads _ _ c _ _ _ h _ hr := ⟨c, h.blocked (h.stands.blocked hr)⟩

instance [hb : Picks b P P'] : Steps env fs P (build (.setInsertPoint b)) (fun _ => P') 0 where
  leads _ _ _ _ _ _ h _ hr := ⟨b, runs_setInsertPoint.mp hr ▸ h.enter hb.perm⟩

instance {bits : Nat} {name : String} [hb : Known (bits ≤ 64)] :
    Steps env fs P (build (.alloca (.int bits) name)) (fun _ => P) 1 :=
  .of_adds fun _ _ _ _ _ _ h hr => (h.slotted hr hb.holds).adds

instance {ty : Ssa.Ty} {i : Int} : Steps env fs P (build (.constInt ty i)) (fun _ => P) 0 :=
  .of_adds fun _ _ _ _ _ _ h hr => (h.consted hr).adds

theorem Stands.icmp {o : Ssa.IntPredicate} (h : Stands f e b s)
    (hr : Runs (build (.icmp o x y)) env s r t) :
    Emitted f e b s { op := .icmp, type := .int 1, args := [some x, some y], auxInt := o.code }
      r t :=
  h.emitted hr (by simp) (by simp)

instance {o : Ssa.IntPredicate} : Steps env fs P (build (.icmp o x y)) (fun _ => P) 0 :=
  .of_adds fun _ _ _ _ _ _ h hr => (h.icmp hr).adds

/-- An operation that is appended to the current block as it is. -/
class Appends (o : Ssa.Op) : Prop where
  ne : o ≠ .phi ∧ o ≠ .alloca

instance : Appends .add := ⟨by decide⟩

instance : Appends .sub := ⟨by decide⟩

instance : Appends .neg := ⟨by decide⟩

instance : Appends .not := ⟨by decide⟩

theorem Stands.binary {o : Ssa.Op} [ho : Appends o] (h : Stands f e b s)
    (hr : Runs (build (.binary o x y)) env s r t) :
    Emitted f e b s { op := o, type := s.module.typeOf x, args := [some x, some y] } r t :=
  h.emitted (runs_binary.mp hr) ho.ne.1 ho.ne.2

instance {o : Ssa.Op} [Appends o] : Steps env fs P (build (.binary o x y)) (fun _ => P) 0 :=
  .of_adds fun _ _ _ _ _ _ h hr => (h.binary hr).adds

theorem Stands.unary {o : Ssa.Op} [ho : Appends o] (h : Stands f e b s)
    (hr : Runs (build (.unary o x)) env s r t) :
    Emitted f e b s { op := o, type := s.module.typeOf x, args := [some x] } r t :=
  h.emitted (runs_unary.mp hr) ho.ne.1 ho.ne.2

instance {o : Ssa.Op} [Appends o] : Steps env fs P (build (.unary o x)) (fun _ => P) 0 :=
  .of_adds fun _ _ _ _ _ _ h hr => (h.unary hr).adds

theorem Stands.load (h : Stands f e b s) (hr : Runs (build (.load x)) env s r t) :
    Emitted f e b s { op := .load, type := (s.module.typeOf x).elem?.getD .void, args := [some x] }
      r t :=
  h.emitted (runs_load.mp hr) (by simp) (by simp)

instance : Steps env fs P (build (.load x)) (fun _ => P) 0 :=
  .of_adds fun _ _ _ _ _ _ h hr => (h.load hr).adds

theorem Stands.store {m : Unit} (h : Stands f e b s) (hr : Runs (build (.store x y)) env s m t) :
    ∃ r, Emitted f e b s { op := .store, type := .void, args := [some y, some x] } r t := by
  obtain ⟨r, hr⟩ := runs_store.mp hr
  exact ⟨r, h.emitted hr (by simp) (by simp)⟩

instance : Steps env fs P (build (.store x y)) (fun _ => P) 0 :=
  .of_adds fun _ _ _ _ _ _ h hr => (h.store hr).choose_spec.adds

instance {g : FuncRef} {xs : List ValueRef} : Steps env fs P (build (.call g xs)) (fun _ => P) 0 :=
  .of_adds fun _ _ _ _ _ _ h hr => (h.emitted (runs_call.mp hr) (by simp) (by simp)).adds

theorem steps_end {m : Ssa.Build Unit} {kind : Ssa.BlockKind}
    {controls : List (Option ValueRef) → List (Option ValueRef)} {succs : List BlockRef}
    (hm : Ending m kind controls succs) : Steps env fs P (build m) (fun _ => P) 0 :=
  .of_adds fun _ _ _ _ _ _ h hr => (h.ended hm hr).adds

instance : Steps env fs P (build (.br d)) (fun _ => P) 0 :=
  steps_end (ending_br d)

instance : Steps env fs P (build (.condBr x b d)) (fun _ => P) 0 :=
  steps_end (ending_condBr x b d)

instance {x : Option ValueRef} : Steps env fs P (build (.ret x)) (fun _ => P) 0 :=
  steps_end (ending_ret x)

instance : Steps env fs P (build .retVoid) (fun _ => P) 0 :=
  steps_end ending_retVoid

instance : Steps env fs P (build (.typeOf x)) (fun _ => P) 0 :=
  .still fun _ _ _ _ hr => (runs_typeOf.mp hr).2

instance : Steps env fs P (build .isTerminated) (fun _ => P) 0 :=
  .still fun _ _ _ _ hr => (runs_isTerminated.mp hr).choose_spec.2.2

instance {i : Var} : Steps env fs P (storageOf i) (fun _ => P) 0 :=
  .still fun _ _ _ _ hr => (runs_storageOf.mp hr).2

instance {st : Storage} : Steps env fs P (readStorage st) (fun _ => P) 0 := by
  unfold readStorage
  infer_instance

/-! ## Conversions -/

theorem runs_castPrimitive (hp : p.isPlain) (hq : q.isPlain)
    (h : Runs (castPrimitive x p q) env s r t) :
    (p = q ∧ r = x ∧ t = s) ∨
      (p ≠ q ∧ q = .bool ∧ ∃ z u, Runs (build (.constInt (.int p.bits) 0)) env s z u ∧
        Runs (build (.icmp .ne x z)) env u r t) ∨
      (p ≠ q ∧ q ≠ .bool ∧ Runs (build (.intCast x (.int q.bits))) env s r t) := by
  unfold castPrimitive at h
  rw [Primitive.isFloat_of_isPlain hp, Primitive.isFloat_of_isPlain hq,
    Primitive.machineType_of_isPlain hp, Primitive.machineType_of_isPlain hq] at h
  split at h
  next hpq =>
    obtain ⟨rfl, rfl⟩ := runs_pure.mp h
    exact .inl ⟨by simpa using hpq, rfl, rfl⟩
  next hpq =>
    have hpq : p ≠ q := by simpa using hpq
    split at h
    next hb =>
      have hb : q = .bool := by simpa [Primitive.isBoolean] using hb
      obtain ⟨z, u, hz, hr⟩ := runs_bind.mp h
      exact .inr (.inl ⟨hpq, hb, z, u, hz, hr⟩)
    next hb =>
      have hb : q ≠ .bool := by simpa [Primitive.isBoolean] using hb
      exact .inr (.inr ⟨hpq, hb, h⟩)

instance [hp : Known p.isPlain] [hq : Known q.isPlain] :
    Steps env fs P (castPrimitive x p q) (fun _ => P) 0 :=
  .of_adds fun _ _ b _ _ _ h hr => by
    rcases runs_castPrimitive hp.holds hq.holds hr with ⟨-, -, rfl⟩ | ⟨-, -, z, u, hz, hr⟩ |
      ⟨-, -, hr⟩
    · exact .refl h
    · have gz := (h.consted hz).adds
      exact gz.trans (gz.stands.icmp hr).adds
    · rcases runs_intCast hr with ⟨-, rfl, -⟩ | ⟨o, he, ho⟩
      · exact .refl h
      · refine (h.emitted he ?_ ?_).adds
        all_goals rcases ho with ⟨rfl, -⟩ | ⟨rfl, -⟩ | ⟨rfl, -⟩ <;> simp

theorem as_eq {source target : ExprTy} {cx : Lowering ValueRef} (hp : source.primitive? = some p)
    (hq : target.primitive? = some q) :
    (Operand.mk source cx).as target = cx >>= fun v => castPrimitive v p q := by
  unfold Operand.as coerce
  rw [Core.ExprTy.isNull_of_primitive? hp, hp, hq]
  rfl

end SsaCompiler.Lowering
