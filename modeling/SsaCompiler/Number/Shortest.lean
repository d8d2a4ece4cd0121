import SsaCompiler.Number.Binary

/-!
# Decimal digits of floating-point numbers

The digits of a fraction `m * 2 ^ q`, either as few as read back as the same number, or rounded at a
given place. A decimal is a list of digits behind a point that is moved by a power of ten.
-/

namespace SsaCompiler.Number

/-- The decimal `0.d₁d₂d₃… * 10 ^ point`; the last digit is not zero. -/
structure Decimal where
  digits : List Char
  point : Int
  deriving DecidableEq, Repr

namespace Decimal

def zero : Decimal := ⟨[], 0⟩

/-- The decimal `n * 10 ^ e`. -/
def ofNat (n : Nat) (e : Int) : Decimal :=
  if n == 0 then zero
  else
    let digits := Nat.toDigits 10 n
    let trimmed := (digits.reverse.dropWhile (· == '0')).reverse
    ⟨trimmed, e + digits.length⟩

/-- The number `m * 2 ^ q * 10 ^ -k` as a quotient. -/
def quotient (m : Nat) (q k : Int) : Nat × Nat :=
  let (num, den) := scaleQuotient m 1 (-q)
  if k < 0 then (num * Nat.pow 10 (-k).toNat, den) else (num, den * Nat.pow 10 k.toNat)

/-- The exponent `e` with `10 ^ e ≤ m * 2 ^ q < 10 ^ (e + 1)`, for numbers of at least `10 ^
-400`. -/
def leadingExponent (m : Nat) (q : Int) : Int :=
  let (num, den) := quotient m q (-400)
  ((Nat.toDigits 10 (num / den)).length : Int) - 401

/-- The multiple of `10 ^ k` nearest to `m * 2 ^ q`. -/
def rounded (m : Nat) (q k : Int) : Decimal :=
  let (num, den) := quotient m q k
  ofNat (roundQuotient num den) k

/-- The number rounded to `n` digits, or exactly if it has fewer. -/
def significant (m : Nat) (q : Int) (n : Nat) : Decimal :=
  if m == 0 then zero else rounded m q (leadingExponent m q - n + 1)

/-- The nearest `n`-digit decimal if it reads back as the number. All quantities are four times as
large, so that the ends of the interval that reads back are whole; they belong to it if the mantissa
is even. -/
def readsBack? (m : Nat) (q lead : Int) (n : Nat) : Option Decimal :=
  let k := lead - n + 1
  let below := if m == 1 <<< 52 && q != -1074 then 1 else 2
  let (value, unit) := quotient (4 * m) (q - 2) k
  let (low, _) := quotient (4 * m - below) (q - 2) k
  let (high, _) := quotient (4 * m + 2) (q - 2) k
  let within (c : Nat) : Bool :=
    if m % 2 == 0 then low ≤ c * unit && c * unit ≤ high else low < c * unit && c * unit < high
  let down := value / unit
  let best := roundQuotient value unit
  let other := if best == down then down + 1 else down
  if within best then some (ofNat best k)
  else if within other then some (ofNat other k)
  else none

/-- The shortest decimal that reads back, among those with `n` digits or more. -/
def shortestFrom (m : Nat) (q lead : Int) : (fuel n : Nat) → Decimal
  | 0, n => significant m q n
  | fuel + 1, n =>
    match readsBack? m q lead n with
    | some d => d
    | none => shortestFrom m q lead fuel (n + 1)

/-- The shortest decimal that reads back as the number `m * 2 ^ q` of the 64-bit format, the nearest
one if there are several. -/
def shortest (m : Nat) (q : Int) : Decimal :=
  if m == 0 then zero else shortestFrom m q (leadingExponent m q) 17 1

end Decimal

end SsaCompiler.Number
