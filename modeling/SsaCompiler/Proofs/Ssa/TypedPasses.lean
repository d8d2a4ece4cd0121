import SsaCompiler.Proofs.Ssa.Retyping

/-!
# Passes keep the types of operands

A step of promotion that replaces an operand has to know the type of the new one: what a slot holds
has the type of the reads of the slot, and a phi value has the type of its arguments. Then the step
is a replacement by operands of the same type.

The only new values are phi values without arguments and zeros.
-/

namespace SsaCompiler.Ssa

open List

variable {x : Value} {t : Ty} {slots : List ValueRef}

/-- A value without operands that needs none: a phi value to be filled, a constant, or nothing. -/
structure Value.Blank (x : Value) : Prop where
  op : x.op = .phi ∨ x.op.isConst ∨ x.op = .invalid
  args : ∀ a, some a ∉ x.args
  standard : x.type.Standard
  other : x.op.neverInt → x.type.isInt = false

theorem Value.Blank.takes (h : x.Blank) {result : FuncRef → Ty} (typeOf : ValueRef → Ty) :
    Takes result x (x.args.map (Option.map typeOf)) := by
  unfold Takes
  rcases h.op with hop | hop | hop
  · rw [hop]
    intro t ht
    obtain ⟨y, hy, hyt⟩ := mem_map.mp ht
    obtain ⟨a, rfl, -⟩ := Option.map_eq_some_iff.mp hyt
    exact absurd hy (h.args a)
  · cases hcase : x.op <;> rw [hcase] at hop <;> first
      | exact absurd hop (by decide)
      | exact trivial
  · rw [hop]
    exact trivial

namespace Module

/-! ## Promotion -/

/-- A value may be held by a slot. -/
def HeldBy (m : Module) (slot a : ValueRef) : Prop :=
  m.typeOf slot = .pointer (m.typeOf a) ∧ m.IsOperand a

/-- All slots hold values of their types. -/
def HoldsTyped (m : Module) (h : Holds) : Prop :=
  ∀ slot a, h.of slot = some a → m.HeldBy slot a

variable {m m' : Module} {f : FuncRef} {phis : Phis} {h : Holds} {s : Renaming} {b : BlockRef}
  {v slot a : ValueRef}

theorem HoldsTyped.cons (hh : m.HoldsTyped h) (ha : m.HeldBy slot a) :
    m.HoldsTyped ((slot, a) :: h) := by
  intro slot' a' hlookup
  rw [Holds.of, lookup_cons] at hlookup
  split at hlookup
  next heq =>
    rw [beq_iff_eq] at heq
    rw [heq, ← Option.some.inj hlookup]
    exact ha
  next => exact hh slot' a' hlookup

theorem HoldsTyped.append {h' : Holds} (hh : m.HoldsTyped h)
    (hh' : ∀ x ∈ h', m.HeldBy x.1 x.2) : m.HoldsTyped (h' ++ h) := by
  induction h' with
  | nil => exact hh
  | cons x h' ih =>
    exact (ih fun y hy => hh' y (mem_cons_of_mem x hy)).cons (hh' x mem_cons_self)

/-- Values have been added. -/
structure Enlarged (m m' : Module) : Prop extends SameWays m m' where
  size : m.values.size ≤ m'.values.size
  value : ∀ v < m.values.size, m'.value v = m.value v
  controls : ∀ b, (m'.block b).controls = (m.block b).controls

namespace Enlarged

variable {m'' : Module}

theorem refl (m : Module) : Enlarged m m :=
  ⟨.refl m, Nat.le_refl _, fun _ _ => rfl, fun _ => rfl⟩

theorem trans (h : Enlarged m m') (h' : Enlarged m' m'') : Enlarged m m'' where
  toSameWays := h.toSameWays.trans h'.toSameWays
  size := Nat.le_trans h.size h'.size
  value v hv := (h'.value v (Nat.lt_of_lt_of_le hv h.size)).trans (h.value v hv)
  controls b := (h'.controls b).trans (h.controls b)

theorem typeOf_eq (h : Enlarged m m') (hv : v < m.values.size) : m'.typeOf v = m.typeOf v := by
  rw [typeOf, h.value v hv, typeOf]

theorem isOperand (h : Enlarged m m') (ha : m.IsOperand a) : m'.IsOperand a := by
  refine ⟨Nat.lt_of_lt_of_le ha.1 h.size, ?_⟩
  have hcount := ha.2
  simp only [IsPrintCount, Func.isDeclaration, h.value a ha.1, (h.func _).name, (h.func _).entry]
    at hcount ⊢
  exact hcount

theorem typed (h : Enlarged m m') (hm : m.Typed)
    (hblank : ∀ v, m.values.size ≤ v → (m'.value v).Blank)
    (hlisted : ∀ b v, v ∈ (m'.block b).values → v ∈ (m.block b).values ∨ m.values.size ≤ v) :
    m'.Typed := by
  -- a value that was there is as it was, and any other is blank
  have hcases : ∀ b v, v ∈ (m'.block b).values →
      v ∈ (m.block b).values ∧ m'.value v = m.value v ∨ (m'.value v).Blank := by
    intro b v hv
    by_cases hlt : v < m.values.size
    · rcases hlisted b v hv with hv | hle
      · exact .inl ⟨hv, h.value v hlt⟩
      · exact absurd hlt (Nat.not_lt.mpr hle)
    · exact .inr (hblank v (Nat.le_of_not_lt hlt))
  refine ⟨h.routed hm.toRouted, fun v => ?_, fun v hconst hop => ?_, fun {b v} hv hop => ?_,
    fun {b v} hv => ?_, fun {b v a} hv ha => ?_, fun {b a} ha => ?_, fun {b a} hkind hhead => ?_⟩
  · by_cases hlt : v < m.values.size
    · rw [h.typeOf_eq hlt]
      exact hm.standard v
    · exact (hblank v (Nat.le_of_not_lt hlt)).standard
  · by_cases hlt : v < m.values.size
    · rw [h.typeOf_eq hlt]
      rw [h.value v hlt] at hconst hop
      exact hm.constant v hconst hop
    · exact (hblank v (Nat.le_of_not_lt hlt)).other hop
  · rcases hcases b v hv with ⟨hv, heq⟩ | hnew
    · rw [heq] at hop
      rw [typeOf, heq]
      exact hm.other hv hop
    · exact hnew.other hop
  · rcases hcases b v hv with ⟨hv, heq⟩ | hnew
    · have htypes : m'.argTypes v = m.argTypes v := by
        rw [argTypes, argTypes, heq]
        refine map_congr_left fun x hx => ?_
        cases x with
        | none => rfl
        | some a =>
          rw [Option.map_some, Option.map_some, h.typeOf_eq (hm.operand hv hx).1]
      rw [h.resultOf_eq, heq, htypes]
      exact hm.takes hv
    · exact hnew.takes _
  · rcases hcases b v hv with ⟨hv, heq⟩ | hnew
    · rw [heq] at ha
      exact h.isOperand (hm.operand hv ha)
    · exact absurd ha (hnew.args a)
  · rw [h.controls] at ha
    exact h.isOperand (hm.control ha)
  · rw [h.controls] at hhead
    rw [(h.block b).2.1] at hkind
    rw [h.resultOf_eq, (h.block b).1, h.typeOf_eq (hm.control (mem_of_mem_head? hhead)).1]
    exact hm.ret hkind hhead

end Enlarged

theorem Retyped.dropReplaced (dead : Array Bool) (m : Module) (b : BlockRef) :
    Retyped m (dropReplaced dead m b) := by
  refine .keepValues (List.foldlRecOn (motive := Recounted m) _ _ (.refl m) fun m' h v _ => ?_)
    fun v hv => (mem_filter.mp hv).1
  exact h.trans (recounted_dropUses m' _)

theorem Retyped.dropSlots (slots : List ValueRef) (m : Module) (b : BlockRef) :
    Retyped m (dropSlots slots m b) :=
  .modifyBlock m b (fun _ => ⟨rfl, rfl, rfl⟩) (fun _ => rfl) fun _ hv => (mem_filter.mp hv).1

end Module

end SsaCompiler.Ssa
