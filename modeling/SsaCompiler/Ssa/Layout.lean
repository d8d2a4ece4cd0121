import SsaCompiler.Number.Wrap
import SsaCompiler.Ssa.Ty

/-!
# Layout of objects

How many bytes an object takes and where the fields of a structure lie. A field starts at the next
multiple of its alignment, and a structure ends at a multiple of its own. All sums and products are
taken in 64-bit words.
-/

namespace SsaCompiler.Ssa

open Number (wrap64)

def pointerSize : Int := 8

/-- The next multiple of `a` from `x` on. -/
def alignUp (x a : Int) : Int :=
  wrap64 (Int.tdiv (wrap64 (x + a - 1)) a * a)

namespace Ty

mutual

def size : Ty → Int
  | .void => 0
  | .int n => (n + 7) / 8
  | .float => 4
  | .double => 8
  | .pointer _ => pointerSize
  | .func _ _ _ => pointerSize
  | .array n t => wrap64 (n * size t)
  | .struct ts => alignUp (fieldsEnd 0 ts) (fieldsAlign 1 ts)

/-- The number that the address of an object of the type is a multiple of. -/
def align : Ty → Int
  | .void => 1
  | .int n => max ((n + 7) / 8) 1
  | .float => 4
  | .double => 8
  | .pointer _ => pointerSize
  | .func _ _ _ => pointerSize
  | .array _ t => align t
  | .struct ts => fieldsAlign 1 ts

/-- The largest alignment of fields, at least `a`. -/
def fieldsAlign (a : Int) : List Ty → Int
  | [] => a
  | t :: ts => fieldsAlign (max a (align t)) ts

/-- The offset behind the last of the fields when they start behind `offset`. -/
def fieldsEnd (offset : Int) : List Ty → Int
  | [] => offset
  | t :: ts => fieldsEnd (wrap64 (alignUp offset (align t) + size t)) ts

end

/-- The offset of field `i` when the fields start behind `offset`. -/
def fieldOffset (offset : Int) : List Ty → Nat → Int
  | [], _ => offset
  | t :: _, 0 => alignUp offset t.align
  | t :: ts, i + 1 => fieldOffset (wrap64 (alignUp offset t.align + t.size)) ts i

def offset (t : Ty) (i : Nat) : Int :=
  fieldOffset 0 t.fields i

end Ty

end SsaCompiler.Ssa
