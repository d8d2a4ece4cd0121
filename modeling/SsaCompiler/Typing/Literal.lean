import SsaCompiler.Number.FloatText
import SsaCompiler.Typing.Error

/-!
# Literals

The type and the value of a literal token. The kind of the token decides the type, except for
hexadecimal and binary numbers: they are of the smallest type of at least 32 bits that is wide
enough. A literal whose value does not fit its type has a type but no value.
-/

namespace SsaCompiler.Literal

open SsaCompiler.Core (ExprTy)

/-- The primitive type of an integer token of a kind with a fixed type. -/
def integerType? : Token.Kind → Option Primitive
  | .byte => some .byte
  | .ubyte => some .ubyte
  | .short => some .short
  | .ushort => some .ushort
  | .integer => some .int
  | .uinteger => some .uint
  | .long => some .long
  | .ulong => some .ulong
  | _ => none

def digitValue? (base : Nat) (digits : List Char) : Option Nat :=
  Number.ofDigits? base digits

def fits (p : Primitive) (n : Nat) : Bool :=
  if p.isUnsigned then Number.fitsUnsigned p.bits n else Number.fitsSigned p.bits n

def readInteger (p : Primitive) (text : String) : Option Core.Expr :=
  ((digitValue? 10 text.toList).filter (fits p)).map fun n => .int p (Number.wrap64 n)

/-- An integer of another base, behind its two-character mark. -/
def readRadix (base : Nat) (text : String) : ExprTy × Option Core.Expr :=
  match digitValue? base (text.toList.drop 2) with
  | none => (.ofPrimitive .int, none)
  | some n =>
    if n < 1 <<< 31 then (.ofPrimitive .int, some (.int .int n))
    else if n < 1 <<< 64 then (.ofPrimitive .long, some (.int .long (Number.wrap64 n)))
    else (.ofPrimitive .long, none)

def readFloating (p : Primitive) (text : String) : Option Core.Expr :=
  let format : Number.BinaryFormat := if p == .float then .single else .double
  match Number.readFloat? format text.toList with
  | some (bits, true) => some (.float p bits)
  | _ => none

/-- The type of a literal, and its value if it fits; none if the token is no literal. -/
def read? (kind : Token.Kind) (text : String) : Option (ExprTy × Option Core.Expr) :=
  match kind with
  | .string => some (.ofPrimitive .string, some (.text text))
  | .character =>
    match text.toList with
    | [c] =>
      some (.ofPrimitive .char, if c.toNat ≤ 255 then some (.int .char c.toNat) else none)
    | _ => some (.ofPrimitive .char, none)
  | .boolean => some (.ofPrimitive .bool, some (.int .bool (if text == "true" then 1 else 0)))
  | .null => some (.null, some .null)
  | .float => some (.ofPrimitive .float, readFloating .float text)
  | .double => some (.ofPrimitive .double, readFloating .double text)
  | .hexadecimal => some (readRadix 16 text)
  | .binary => some (readRadix 2 text)
  | _ => (integerType? kind).map fun p => (.ofPrimitive p, readInteger p text)

/-- The value of a constant integer expression: a literal with signs and parentheses around it. -/
def constant? : Expr → Option Int
  | .group _ x => constant? x
  | .unary _ .neg x => (constant? x).map fun n => Number.wrap64 (-n)
  | .literal _ kind text =>
    if kind.isNumber then
      match read? kind text with
      | some (_, some (.int _ n)) => some n
      | _ => none
    else none
  | _ => none

end SsaCompiler.Literal
