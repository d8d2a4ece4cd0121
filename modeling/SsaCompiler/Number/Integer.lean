/-!
# Reading integers

Integers are read digit by digit in a given base. A reading fails when a character is no digit of
the base or when there are no digits; whether the value fits a width is asked separately.
-/

namespace SsaCompiler.Number

/-- The value of a digit below 36; letters continue the ten digits in either case. -/
def digit? (c : Char) : Option Nat :=
  if '0' ≤ c && c ≤ '9' then some (c.toNat - 48)
  else if 'a' ≤ c && c ≤ 'z' then some (c.toNat - 87)
  else if 'A' ≤ c && c ≤ 'Z' then some (c.toNat - 55)
  else none

def digitIn? (base : Nat) (c : Char) : Option Nat :=
  (digit? c).filter (· < base)

def readDigits (base : Nat) (value : Nat) : List Char → Option Nat
  | [] => some value
  | c :: rest =>
    match digitIn? base c with
    | some d => readDigits base (value * base + d) rest
    | none => none

/-- The number that a non-empty list of digits denotes. -/
def ofDigits? (base : Nat) (digits : List Char) : Option Nat :=
  if digits.isEmpty then none else readDigits base 0 digits

/-- Splits an optional sign from a number; the flag says whether the number is negative. -/
def splitSign : List Char → Bool × List Char
  | '-' :: rest => (true, rest)
  | '+' :: rest => (false, rest)
  | cs => (false, cs)

/-- The integer written in decimal with an optional sign. -/
def ofDecimal? (cs : List Char) : Option Int :=
  let (negative, digits) := splitSign cs
  (ofDigits? 10 digits).map fun n => if negative then -(n : Int) else n

def fitsSigned (bits : Nat) (v : Int) : Bool :=
  -((1 <<< (bits - 1) : Nat) : Int) ≤ v && v < ((1 <<< (bits - 1) : Nat) : Int)

def fitsUnsigned (bits : Nat) (v : Nat) : Bool :=
  v < 1 <<< bits

end SsaCompiler.Number
