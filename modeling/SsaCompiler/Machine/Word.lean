/-!
# Machine words

A register holds 64 bits. Integers of fewer bits are held with their sign extended to the whole
word, truth values as zero or one. After each operation `wrap` brings the result back to that form.
-/

namespace SsaCompiler.Machine

/-- The content of a register. -/
abbrev Word := UInt64

namespace Word

def signed (x : Word) : Int :=
  x.toInt64.toInt

/-- The word that holds the low 64 bits of an integer. -/
def ofInt (n : Int) : Word :=
  UInt64.ofInt n

/-- Cuts a word to a signed integer of a width; widths other than 1, 8, 16 and 32 keep all bits. -/
def wrap (bits : Nat) (x : Word) : Word :=
  match bits with
  | 1 => x &&& 1
  | 8 => x.toUInt8.toInt8.toInt64.toUInt64
  | 16 => x.toUInt16.toInt16.toInt64.toUInt64
  | 32 => x.toUInt32.toInt32.toInt64.toUInt64
  | _ => x

/-- The low bits of a word as an unsigned number; widths other than 1, 8, 16 and 32 keep all
bits. -/
def low (bits : Nat) (x : Word) : Word :=
  match bits with
  | 1 => x &&& 1
  | 8 => x.toUInt8.toUInt64
  | 16 => x.toUInt16.toUInt64
  | 32 => x.toUInt32.toUInt64
  | _ => x

def ofBool (b : Bool) : Word :=
  if b then 1 else 0

/-- The quotient of two signed words, rounded toward zero. -/
def quotient (x y : Word) : Word :=
  (x.toInt64 / y.toInt64).toUInt64

/-- The remainder of two signed words, with the sign of the first. -/
def remainder (x y : Word) : Word :=
  (x.toInt64 % y.toInt64).toUInt64

def hexDigits (n : Nat) : String :=
  "0x" ++ String.ofList (Nat.toDigits 16 n)

def hex (x : Word) : String :=
  hexDigits x.toNat

end Word

end SsaCompiler.Machine
