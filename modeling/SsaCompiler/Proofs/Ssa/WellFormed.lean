import SsaCompiler.Proofs.Ssa.Complaints

/-!
# What verification establishes

Verification answers with a list of complaints. When the list is empty the function has the shape
that `WellFormed` spells out: blocks and edges fit together, values know their blocks, and what a
value or the end of a block refers to is in the function or is a constant. All later statements
start from these facts and never look at the complaints again.
-/

namespace SsaCompiler.Ssa

/-- The structure of a verified function of a module that starts in `entry`. -/
structure WellFormed (m : Module) (r : FuncRef) (entry : BlockRef) : Prop where
  entry_eq : (m.func r).entry = some entry
  entry_mem : entry ∈ (m.func r).blocks
  home : ∀ b ∈ (m.func r).blocks, ∀ v ∈ (m.block b).values, (m.value v).block = some b
  plain : ∀ b ∈ (m.func r).blocks, (m.block b).kind = .plain → (m.block b).succs.length = 1
  branch : ∀ b ∈ (m.func r).blocks, (m.block b).kind = .branch →
    (m.block b).succs.length = 2 ∧ (m.block b).controls.length = 1
  succ : ∀ b ∈ (m.func r).blocks, ∀ s ∈ (m.block b).succs,
    s ∈ (m.func r).blocks ∧ b ∈ (m.block s).preds
  pred : ∀ b ∈ (m.func r).blocks, ∀ p ∈ (m.block b).preds,
    p ∈ (m.func r).blocks ∧ b ∈ (m.block p).succs
  arg : ∀ b ∈ (m.func r).blocks, ∀ v ∈ (m.block b).values, ∀ a, some a ∈ (m.value v).args →
    (∃ c ∈ (m.func r).blocks, a ∈ (m.block c).values) ∨
      ((m.value a).block = none ∧ (m.value a).op.isConst)
  control : ∀ b ∈ (m.func r).blocks, ∀ a, some a ∈ (m.block b).controls →
    (∃ c ∈ (m.func r).blocks, a ∈ (m.block c).values) ∨
      ((m.value a).block = none ∧ (m.value a).op.isConst)

namespace Module

variable {m : Module} {r : FuncRef}

end Module

namespace WellFormed

variable {m : Module} {r : FuncRef} {entry b : BlockRef}

/-- The blocks of a well-formed function are in the table: a block outside of it would be a jump
without a successor. -/
theorem lt_size (h : WellFormed m r entry) (hb : b ∈ (m.func r).blocks) : b < m.blocks.size := by
  by_contra hlt
  have hdefault : m.block b = default := by
    rw [Module.block, Array.getD_eq_getD_getElem?, Array.getElem?_eq_none (Nat.le_of_not_lt hlt)]
    rfl
  have hone := h.plain b hb (by rw [hdefault]; rfl)
  rw [hdefault] at hone
  exact absurd hone (by decide)

end WellFormed

end SsaCompiler.Ssa
