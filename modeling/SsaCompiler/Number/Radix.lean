import SsaCompiler.Number.Integer

/-!
# Integers in any usual base

An integer may start with a sign and with a mark of its base: `0x`, `0o` or `0b` in either case, or
a plain `0` for octal. Single underscores may stand between digits and behind the mark.

A value that is too large is noticed at the digit that makes it so, before anything behind it is
looked at.
-/

namespace SsaCompiler.Number

inductive WordError where
  | malformed
  | tooLarge
  deriving DecidableEq, Repr

/-- The base of a number, and its digits behind the mark of the base. -/
def splitBase : List Char → Nat × List Char
  | '0' :: c :: d :: rest =>
    if c == 'b' || c == 'B' then (2, d :: rest)
    else if c == 'o' || c == 'O' then (8, d :: rest)
    else if c == 'x' || c == 'X' then (16, d :: rest)
    else (8, c :: d :: rest)
  | '0' :: rest => (8, rest)
  | cs => (10, cs)

/-- Reads digits with underscores among them behind a value already read. The value has to stay
below the bound. -/
def readMarked (base bound : Nat) (value : Nat) : List Char → Except WordError Nat
  | [] => .ok value
  | c :: rest =>
    if c == '_' then readMarked base bound value rest
    else
      match digitIn? base c with
      | none => .error .malformed
      | some d =>
        if value * base + d < bound then readMarked base bound (value * base + d) rest
        else .error .tooLarge

/-- Whether underscores stand behind a digit and before a digit only. The flags say whether the
character before is a digit, and whether it is an underscore. -/
def separated (base : Nat) (digit underscore : Bool) : List Char → Bool
  | [] => !underscore
  | c :: rest =>
    if c == '_' then digit && separated base false true rest
    else if (digitIn? (max base 10) c).isSome then separated base true false rest
    else !underscore && separated base false false rest

/-- Whether underscores in a number without a sign stand between digits or behind the mark of the
base. -/
def wellSeparated (cs : List Char) : Bool :=
  match cs with
  | '0' :: c :: rest =>
    if c == 'x' || c == 'X' then separated 16 true false rest
    else if ['b', 'B', 'o', 'O'].contains c then separated 10 true false rest
    else separated 10 false false cs
  | _ => separated 10 false false cs

/-- The unsigned word of the given width that a text denotes. -/
def readUnsigned (bits : Nat) (cs : List Char) : Except WordError Nat :=
  if cs.isEmpty then .error .malformed
  else
    let (base, digits) := splitBase cs
    match readMarked base (1 <<< bits) 0 digits with
    | .error e => .error e
    | .ok n => if cs.contains '_' && !wellSeparated cs then .error .malformed else .ok n

/-- The signed word of the given width that a text denotes. -/
def readSigned (bits : Nat) (cs : List Char) : Except WordError Int :=
  let (negative, digits) := splitSign cs
  match readUnsigned bits digits with
  | .error e => .error e
  | .ok n =>
    let v : Int := if negative then -(n : Int) else n
    if fitsSigned bits v then .ok v else .error .tooLarge

end SsaCompiler.Number
