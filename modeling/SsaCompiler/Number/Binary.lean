/-!
# Floating-point numbers

A 64-bit floating-point number is held as its bits. It is not a number, an infinity, or a fraction
`m * 2 ^ q` with a sign. Conversions are carried out on fractions exactly and rounded once, to the
nearest number of the format; of two equally near ones the even one is taken.
-/

namespace SsaCompiler.Number

/-- What the bits of a floating-point number stand for. -/
inductive Decoded where
  | nan
  | infinite (negative : Bool)
  /-- The number `m * 2 ^ q`. -/
  | finite (negative : Bool) (m : Nat) (q : Int)
  deriving DecidableEq, Repr

structure BinaryFormat where
  /-- The number of bits of a full mantissa. -/
  precision : Nat
  minExp : Int
  maxExp : Int
  deriving DecidableEq, Repr

namespace BinaryFormat

def double : BinaryFormat := ⟨53, -1074, 971⟩

def single : BinaryFormat := ⟨24, -149, 104⟩

end BinaryFormat

/-- The nearest integer to a quotient; the even one of two equally near ones. -/
def roundQuotient (num den : Nat) : Nat :=
  let q := num / den
  let r := num % den
  if 2 * r < den then q
  else if den < 2 * r then q + 1
  else if q % 2 == 0 then q else q + 1

/-- The quotient `num / den * 2 ^ -e` as a quotient of numbers. -/
def scaleQuotient (num den : Nat) (e : Int) : Nat × Nat :=
  if e < 0 then (num <<< (-e).toNat, den) else (num, den <<< e.toNat)

/-- The exponent for a full mantissa of the quotient, if the format has it. -/
def quotientExponent (f : BinaryFormat) (num den : Nat) : Int :=
  let guess := (num.log2 : Int) - den.log2 - f.precision
  let (n, d) := scaleQuotient num den guess
  let e := if n / d < 1 <<< f.precision then guess else guess + 1
  max e f.minExp

/-- The number of the format nearest to a positive quotient, as mantissa and exponent; none if it is
beyond the largest one. -/
def nearest? (f : BinaryFormat) (num den : Nat) : Option (Nat × Int) :=
  let e := quotientExponent f num den
  let (n, d) := scaleQuotient num den e
  let m := roundQuotient n d
  let (m, e) := if m == 1 <<< f.precision then (m / 2, e + 1) else (m, e)
  if f.maxExp < e then none else some (m, e)

namespace Binary64

variable (negative : Bool)

def signBit : UInt64 :=
  if negative then 0x8000000000000000 else 0

def infinity : UInt64 :=
  signBit negative ||| 0x7FF0000000000000

def nan : UInt64 := 0x7FF8000000000001

def decode (bits : UInt64) : Decoded :=
  let negative := bits.toNat >>> 63 == 1
  let exponent : Nat := bits.toNat >>> 52 % 1 <<< 11
  let fraction := bits.toNat % 1 <<< 52
  if exponent == 2047 then
    if fraction == 0 then .infinite negative else .nan
  else if exponent == 0 then .finite negative fraction (-1074)
  else .finite negative (fraction + 1 <<< 52) ((exponent : Int) - 1075)

/-- The bits of `m * 2 ^ q` for a mantissa and exponent of the 64-bit format. -/
def encode (m : Nat) (q : Int) : UInt64 :=
  let magnitude :=
    if m < 1 <<< 52 then m else (q + 1075).toNat <<< 52 + (m - 1 <<< 52)
  signBit negative ||| UInt64.ofNat magnitude

/-- The bits of the number nearest to a quotient, or of an infinity. -/
def ofQuotient (num den : Nat) : UInt64 :=
  if num == 0 then signBit negative
  else
    match nearest? .double num den with
    | some (m, q) => encode negative m q
    | none => infinity negative

/-- The bits of the number nearest to `m * 2 ^ q`. -/
def ofScaled (m : Nat) (q : Int) : UInt64 :=
  let (num, den) := scaleQuotient m 1 (-q)
  ofQuotient negative num den

def ofInt (n : Int) : UInt64 :=
  ofQuotient (n < 0) n.natAbs 1

def toSingle (bits : UInt64) : UInt64 :=
  match decode bits with
  | .finite negative m q =>
    if m == 0 then bits
    else
      let (num, den) := scaleQuotient m 1 (-q)
      match nearest? .single num den with
      | some (m, q) => ofScaled negative m q
      | none => infinity negative
  | _ => bits

/-- The bits of the 32-bit format for a number of that format. -/
def singleBits (bits : UInt64) : Nat :=
  match decode (toSingle bits) with
  | .nan => 0x7FC00000
  | .infinite negative => (if negative then 1 <<< 31 else 0) + 0x7F800000
  | .finite negative m q =>
    let sign := if negative then 1 <<< 31 else 0
    if m == 0 then sign
    else
      let (num, den) := scaleQuotient m 1 (-q)
      match nearest? .single num den with
      | some (m, q) =>
        if m < 1 <<< 23 then sign + m else sign + (q + 150).toNat <<< 23 + (m - 1 <<< 23)
      | none => sign + 0x7F800000

/-- The 64-bit number that equals a number of the 32-bit format. -/
def ofSingleBits (bits : Nat) : UInt64 :=
  let negative := bits >>> 31 % 2 == 1
  let exponent : Nat := bits >>> 23 % 1 <<< 8
  let fraction := bits % 1 <<< 23
  if exponent == 255 then
    if fraction == 0 then infinity negative else nan
  else if exponent == 0 then ofScaled negative fraction (-149)
  else ofScaled negative (fraction + 1 <<< 23) ((exponent : Int) - 150)

def isFinite (bits : UInt64) : Bool :=
  match decode bits with
  | .finite .. => true
  | _ => false

/-- The integer part of a number, rounded toward zero; zero if it is not finite. -/
def truncate (bits : UInt64) : Int :=
  match decode bits with
  | .finite negative m q =>
    let n : Nat := if q < 0 then m >>> (-q).toNat else m <<< q.toNat
    if negative then -(n : Int) else n
  | _ => 0

/-- The remainder of a division rounded toward zero, which has the sign of the dividend. -/
def remainder (x y : UInt64) : UInt64 :=
  match decode x, decode y with
  | .finite negative m q, .finite _ n r =>
    if n == 0 then nan
    else
      let e := min q r
      let a := m <<< (q - e).toNat
      let b := n <<< (r - e).toNat
      ofScaled negative (a % b) e
  | .finite .., .infinite _ => x
  | _, _ => nan

end Binary64

end SsaCompiler.Number
