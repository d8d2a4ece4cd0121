/-!
# Wrapping

Sizes and offsets are computed in 64-bit two's complement words. `wrap64` reduces an exact result to
the word that holds it; it changes nothing that fits.
-/

namespace SsaCompiler.Number

/-- The integer that a 64-bit two's complement word holds in place of `x`. -/
def wrap64 (x : Int) : Int :=
  Int.bmod x (1 <<< 64)

theorem wrap64_of_fits {x : Int} (lo : -(1 <<< 63 : Nat) ≤ x) (hi : x < (1 <<< 63 : Nat)) :
    wrap64 x = x :=
  Int.bmod_eq_of_le lo hi

end SsaCompiler.Number
