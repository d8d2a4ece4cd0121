/-!
# Primitive types

The built-in scalar types with their properties: the storage width, and the precedence that decides
in which type a binary operation on two of them is carried out.
-/

namespace SsaCompiler

/-- A built-in scalar type. -/
inductive Primitive where
  | bool | char | byte | ubyte | short | ushort | int | uint | long | ulong
  | float | double | string | void
  deriving DecidableEq, Repr

namespace Primitive

variable (p : Primitive)

def all : List Primitive := [
  .bool, .char, .byte, .ubyte, .short, .ushort, .int, .uint, .long, .ulong, .float, .double,
  .string, .void]

def name : Primitive → String
  | .bool => "bool"
  | .char => "char"
  | .byte => "byte"
  | .ubyte => "ubyte"
  | .short => "short"
  | .ushort => "ushort"
  | .int => "int"
  | .uint => "uint"
  | .long => "long"
  | .ulong => "ulong"
  | .float => "float"
  | .double => "double"
  | .string => "string"
  | .void => "void"

def ofName? (w : String) : Option Primitive :=
  all.find? fun p => p.name == w

/-- The number of the type, counted from one. -/
def code : Primitive → Nat
  | .bool => 1
  | .char => 2
  | .byte => 3
  | .ubyte => 4
  | .short => 5
  | .ushort => 6
  | .int => 7
  | .uint => 8
  | .long => 9
  | .ulong => 10
  | .float => 11
  | .double => 12
  | .string => 13
  | .void => 14

def ofCode? (n : Nat) : Option Primitive :=
  if n == 0 then none else all[n - 1]?

def isBoolean : Bool :=
  p == .bool

/-- Whether the type holds integers; characters are integers. -/
def isInteger : Primitive → Bool
  | .char | .byte | .ubyte | .short | .ushort | .int | .uint | .long | .ulong => true
  | _ => false

/-- Whether the type holds integers from zero on. -/
def isUnsigned : Primitive → Bool
  | .ubyte | .ushort | .uint | .ulong => true
  | _ => false

def isFloat : Bool :=
  p == .float || p == .double

def isNumeric : Bool :=
  p.isInteger || p.isFloat

/-- The properties as a sum of flags: truth value 1, integer 2, unsigned 4, float 8, text 16,
void 32. -/
def flags : Nat :=
  (if p.isBoolean then 1 else 0) + (if p.isInteger then 2 else 0) + (if p.isUnsigned then 4 else 0)
    + (if p.isFloat then 8 else 0) + (if p == .string then 16 else 0)
    + (if p == .void then 32 else 0)

/-- The precedence in binary operations; the higher one decides. -/
def precedence : Primitive → Int
  | .bool => 0
  | .char => 1
  | .byte | .ubyte => 2
  | .short | .ushort => 3
  | .int | .uint => 4
  | .long | .ulong => 5
  | .float => 6
  | .double => 7
  | .string | .void => -1

def bits : Primitive → Nat
  | .bool => 1
  | .char | .byte | .ubyte => 8
  | .short | .ushort => 16
  | .int | .uint | .float => 32
  | .long | .ulong | .double | .string => 64
  | .void => 0

def size : Nat :=
  (p.bits + 7) / 8

/-- The type in which a binary operation on `x` and `y` is carried out. Of two equal precedences the
left one is kept. -/
def promote (x y : Primitive) : Primitive :=
  if y.precedence > x.precedence then y else x

end Primitive

end SsaCompiler
