import SsaCompiler.Number.FloatText
import SsaCompiler.Text.Utf8

/-!
# Formatting directives

A directive says how one argument is written: flags, a least width, a precision and a verb. What the
argument looks like is decided by the verb; the width then fills it up on one side.

* `-` fills up on the right, `0` with zeros on the left, behind a sign.
* `+` and the blank show a place for the sign of numbers that are not negative.
* `#` shows the base of hexadecimal numbers and keeps the decimal point.
* The precision is the least number of digits of an integer, the number of places of a
  floating-point number, or the greatest number of characters of a text.

A verb that does not fit the argument is shown in place of the argument's text together with it.
-/

namespace SsaCompiler.Text

inductive FormatArg where
  | int (n : Int)
  | uint (n : Nat)
  | text (bytes : List UInt8)
  | float (bits : UInt64)
  deriving DecidableEq, Repr

def FormatArg.typeName : FormatArg → String
  | .int _ => "int64"
  | .uint _ => "uint64"
  | .text _ => "string"
  | .float _ => "float64"

structure Directive where
  minus : Bool := false
  plus : Bool := false
  /-- Show a blank in place of a plus sign. -/
  space : Bool := false
  zero : Bool := false
  /-- Show the base or the decimal point. -/
  sharp : Bool := false
  width : Option Nat := none
  precision : Option Nat := none
  deriving DecidableEq, Repr

namespace Directive

variable (d : Directive)

/-- ASCII characters as bytes. -/
def ascii (cs : List Char) : List UInt8 :=
  cs.map fun c => UInt8.ofNat c.toNat

/-- Fills up to the width with a byte. `count` is the number of characters of the body. -/
def padWith (fill : Char) (count : Nat) (body : List UInt8) : List UInt8 :=
  let missing := d.width.getD 0 - count
  if d.minus then body ++ List.replicate missing (UInt8.ofNat 32)
  else List.replicate missing (UInt8.ofNat fill.toNat) ++ body

/-- Fills up to the width with blanks. -/
def pad (body : List Char) : List UInt8 :=
  d.padWith ' ' body.length (ascii body)

def fill : Char :=
  if d.zero then '0' else ' '

def sign (negative : Bool) : List Char :=
  if negative then ['-'] else if d.plus then ['+'] else if d.space then [' '] else []

/-- An integer in a base with digits above nine as small or capital letters. -/
def integer (negative : Bool) (magnitude base : Nat) (capital : Bool) :
    List UInt8 :=
  if d.precision == some 0 && magnitude == 0 then
    List.replicate (d.width.getD 0) (UInt8.ofNat 32)
  else
    let digits := Nat.toDigits base magnitude
    let digits := if capital then digits.map Char.toUpper else digits
    let mark := d.sign negative
    let least :=
      match d.precision with
      | some p => p
      | none => if d.zero && !d.minus then d.width.getD 0 - mark.length else 0
    let digits := List.replicate (least - digits.length) '0' ++ digits
    let hexMark := if capital then 'X' else 'x'
    let shown := if d.sharp && base == 16 then '0' :: hexMark :: digits else digits
    d.pad (mark ++ shown)

def text (bytes : List UInt8) : List UInt8 :=
  let pieces := Utf8.pieces bytes
  let pieces :=
    match d.precision with
    | some p => pieces.take p
    | none => pieces
  let shown := pieces.flatMap fun
    | .char c => (String.singleton c).toUTF8.toList
    | .invalid b => [b]
  d.padWith d.fill pieces.length shown

/-- The digits of a floating-point number with the decimal point kept, for a number of digits that
are to be shown at least. -/
def keepPoint (digits : List Char) (least : Nat) : List Char :=
  let number := digits.takeWhile (· != 'e')
  let tail := digits.dropWhile (· != 'e')
  let significant := ((number.filter (· != '.')).dropWhile (· == '0')).length
  let hasPoint := number.contains '.'
  let shown := if !hasPoint && number == ['0'] then significant + 1 else significant
  number ++ (if hasPoint then [] else ['.']) ++ List.replicate (least - shown) '0' ++ tail

def float (style : Number.FloatStyle) (precision : Option Nat) (bits : UInt64) :
    List UInt8 :=
  let precision := d.precision.orElse fun _ => precision
  let shown := Number.floatText style precision bits
  match Number.Binary64.decode bits with
  | .nan => d.pad ((if d.plus then ['+'] else if d.space then [' '] else []) ++ shown)
  | .infinite negative =>
    let word := shown.drop 1
    d.pad ((if negative then ['-'] else if d.plus || !d.space then ['+'] else [' ']) ++ word)
  | .finite negative _ _ =>
    let digits := if negative then shown.drop 1 else shown
    let digits :=
      if d.sharp then
        keepPoint digits (if style == .general then precision.getD 6 else 0)
      else digits
    let mark := d.sign negative
    let count := mark.length + digits.length
    if d.zero && !d.minus then
      ascii mark ++ List.replicate (d.width.getD 0 - count) (UInt8.ofNat 48) ++ ascii digits
    else d.pad (mark ++ digits)

def plain : FormatArg → List UInt8
  | .int n => d.integer (n < 0) n.natAbs 10 false
  | .uint n => d.integer false n 10 false
  | .text bytes => d.text bytes
  | .float bits => d.float .general none bits

def write (verb : Char) (arg : FormatArg) : List UInt8 :=
  match verb, arg with
  | 'd', .int n => d.integer (n < 0) n.natAbs 10 false
  | 'd', .uint n => d.integer false n 10 false
  | 'x', .uint n => d.integer false n 16 false
  | 'X', .uint n => d.integer false n 16 true
  | 's', .text bytes => d.text bytes
  | 'e', .float bits => d.float .exponent (some 6) bits
  | 'f', .float bits => d.float .positional (some 6) bits
  | 'g', .float bits => d.float .general none bits
  | _, _ =>
    ascii ("%!".toList ++ [verb] ++ ['('] ++ arg.typeName.toList ++ ['=']) ++ d.plain arg
      ++ ascii [')']

def isFlag (c : Char) : Bool :=
  c == '-' || c == '+' || c == ' ' || c == '0' || c == '#'

def ofFlags (flags : List Char) : Directive :=
  { minus := flags.contains '-', plus := flags.contains '+', space := flags.contains ' '
    zero := flags.contains '0', sharp := flags.contains '#' }

/-- The number that digits denote; none if it is too large for a width or a precision. -/
def smallNumber? (digits : List Char) : Option Nat :=
  digits.foldl (fun n c => n.bind fun n =>
    if n > 1000000 then none else some (n * 10 + (c.toNat - 48))) (some 0)

/-- Writes one argument with the directive given by flags, width, precision and verb. Characters
behind the verb are written as they are. -/
def render (directive : List Char) (arg : FormatArg) : List UInt8 :=
  let d := ofFlags (directive.takeWhile isFlag)
  let rest := directive.dropWhile isFlag
  let widthDigits := rest.takeWhile Char.isDigit
  let rest := rest.dropWhile Char.isDigit
  let noVerb := ascii "%!(NOVERB)".toList
  let finish (d : Directive) (rest : List Char) : List UInt8 :=
    match rest with
    | [] => noVerb
    | verb :: tail => d.write verb arg ++ ascii tail
  match smallNumber? widthDigits with
  | none => noVerb
  | some w =>
    let d := { d with width := if widthDigits.isEmpty then none else some w }
    match rest with
    | '.' :: more =>
      let digits := more.takeWhile Char.isDigit
      match smallNumber? digits with
      | none => noVerb
      | some p => finish { d with precision := some p } (more.dropWhile Char.isDigit)
    | _ => finish d rest

end Directive

end SsaCompiler.Text
