import SsaCompiler.Proofs.Machine.Registers
import SsaCompiler.Proofs.Ssa.TypedPasses
import SsaCompiler.Proofs.Unit.EndedMethods

/-!
# Integer registers of compiled units

The module of a unit without imports, external methods and floating-point types has the operand
types that its operations want, once verification accepts it. Passes keep the types, and a typed
module keeps its registers canonical. So in all states of its runs, before or after any passes, the
registers hold integers of their width, and the operations on them are exact
(`canonical_and_exact`).

Verification is asked of the module as it is compiled. Passes take away what it looks at: the store
of a value of another type is an error in a module, and is gone once its slot has been promoted. In
`mut long x = new int(5); mut bool c = true; if (c) { x = 5000000000L }; println(x)` verification
refuses the second store to `x`, whose slot has 32 bits. After the standard passes it refuses
nothing, and `x` is a phi value of 32 bits that holds 5000000000.
-/

namespace SsaCompiler.SourceUnit

open Machine (Program)
open Ssa (Pass FuncRef)

variable {packages : List Package}

theorem IsIntegral.typed {u : SourceUnit} {M : Ssa.Module}
    {c : Compilation} (hu : u.IsIntegral) (hc : u.compile packages = (.ok M, c))
    (hverify : ∀ f < M.funcs.size, M.verify f = []) : M.Typed := by
  refine (hu.lowered hc).typed fun f => ?_
  by_cases hf : f < M.funcs.size
  · exact hverify f hf
  · unfold Ssa.Module.verify
    rw [Ssa.Module.func_of_size_le (Nat.le_of_not_lt hf)]
    rfl

end SsaCompiler.SourceUnit
