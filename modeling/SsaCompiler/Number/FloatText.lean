import SsaCompiler.Number.Integer
import SsaCompiler.Number.Shortest

/-!
# Floating-point numbers as text

Three notations: positional, with an exponent, and the shorter of the two. The last one takes the
exponent if it is below -4 or not below the number of digits asked for; if as many digits are
written as needed, that number counts as six.
-/

namespace SsaCompiler.Number

inductive FloatStyle where
  | positional
  | exponent
  /-- Positional or with an exponent, depending on the size. -/
  | general
  deriving DecidableEq, Repr

namespace Decimal

/-- `n` digits from place `i` on; places behind the last digit are zero. -/
def digitsFrom (d : Decimal) (i n : Nat) : List Char :=
  (List.range n).map fun j => d.digits.getD (i + j) '0'

/-- The decimal with an exponent and `places` digits behind the point. -/
def withExponent (d : Decimal) (places : Nat) : List Char :=
  let e : Int := if d.digits.isEmpty then 0 else d.point - 1
  let digits := Nat.toDigits 10 e.natAbs
  d.digitsFrom 0 1
    ++ (if places == 0 then [] else '.' :: d.digitsFrom 1 places)
    ++ ['e', if e < 0 then '-' else '+']
    ++ (if digits.length < 2 then ['0'] else []) ++ digits

/-- The decimal in positional notation with `places` digits behind the point. -/
def positional (d : Decimal) (places : Nat) : List Char :=
  (if 0 < d.point then d.digitsFrom 0 d.point.toNat else ['0'])
    ++ (if places == 0 then []
      else '.' :: (List.range places).map fun (j : Nat) =>
        let i := d.point + j
        if i < 0 then '0' else d.digits.getD i.toNat '0')

/-- The decimal in general notation when the digits count as `precision` many. -/
def general (d : Decimal) (shortest : Bool) (precision : Nat) : List Char :=
  let count := d.digits.length
  let limit : Int :=
    if shortest then 6
    else if count < precision && d.point ≤ count then count
    else precision
  let e := d.point - 1
  if e < -4 || limit ≤ e then
    d.withExponent (min precision count - 1)
  else
    d.positional ((count : Int) - d.point).toNat

end Decimal

/-- The text of a floating-point number with its sign; a number of digits of none asks for as many
as read back. -/
def floatText (style : FloatStyle) (precision : Option Nat) (bits : UInt64) : List Char :=
  match Binary64.decode bits with
  | .nan => "NaN".toList
  | .infinite negative => (if negative then '-' else '+') :: "Inf".toList
  | .finite negative m q =>
    let sign := if negative then ['-'] else []
    sign ++
      match style, precision with
      | .exponent, some p => (Decimal.significant m q (p + 1)).withExponent p
      | .exponent, none =>
        let d := Decimal.shortest m q
        d.withExponent (d.digits.length - 1)
      | .positional, some p => (Decimal.rounded m q (-p)).positional p
      | .positional, none =>
        let d := Decimal.shortest m q
        d.positional ((d.digits.length : Int) - d.point).toNat
      | .general, some p =>
        let p := if p == 0 then 1 else p
        (Decimal.significant m q p).general false p
      | .general, none =>
        let d := Decimal.shortest m q
        d.general true d.digits.length

/-- The text of a floating-point number in general notation, with as few digits as read back. -/
def shortestText (bits : UInt64) : String :=
  String.ofList (floatText .general none bits)

/-! ## Reading -/

/-- Splits a decimal without sign into its digits and the power of ten behind them. -/
def splitDecimal (cs : List Char) : Option (List Char × Int) :=
  let whole := cs.takeWhile Char.isDigit
  let rest := cs.dropWhile Char.isDigit
  let (fraction, rest) :=
    match rest with
    | '.' :: more => (more.takeWhile Char.isDigit, more.dropWhile Char.isDigit)
    | _ => ([], rest)
  let exponent : Option Int :=
    match rest with
    | [] => some 0
    | c :: more => if c == 'e' || c == 'E' then ofDecimal? more else none
  if whole.isEmpty && fraction.isEmpty then none
  else exponent.map fun e => (whole ++ fraction, e - fraction.length)

/-- The infinity or the no number that a text is the word for, if it is one. Only infinity can have
a sign. -/
def specialFloat? (cs : List Char) : Option UInt64 :=
  let (negative, body) := splitSign cs
  let word (cs : List Char) : String := String.ofList (cs.map Char.toLower)
  if word body == "inf" || word body == "infinity" then some (Binary64.infinity negative)
  else if word cs == "nan" then some Binary64.nan
  else none

/-- The number of a format nearest to a decimal text, with whether it lies within the range of the
format; none if the text is no number. Exponents beyond all ranges are cut off. -/
def readFloat? (f : BinaryFormat) (cs : List Char) : Option (UInt64 × Bool) :=
  match specialFloat? cs with
  | some bits => some (bits, true)
  | none => do
    let (negative, body) := splitSign cs
    let (digits, e) ← splitDecimal body
    let n ← ofDigits? 10 digits
    let e := max (min e 1000) (-1000 - digits.length)
    if n == 0 then
      return (Binary64.signBit negative, true)
    let (num, den) := if e < 0 then (n, Nat.pow 10 (-e).toNat) else (n * Nat.pow 10 e.toNat, 1)
    match nearest? f num den with
    | some (m, q) => return (Binary64.ofScaled negative m q, true)
    | none => return (Binary64.infinity negative, false)

end SsaCompiler.Number
