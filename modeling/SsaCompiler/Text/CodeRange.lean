/-!
# Code point ranges

Character classes of the Unicode standard are given as lists of closed ranges of code points. Tables
of them are written with hexadecimal numbers: `C0-D6` is a range, and `37F` stands for a single code
point. As in page numbers, a number goes without the leading digits that it shares with the number
before it on its line: `1250-6 8 5A-D` stands for `1250-1256`, `1258` and `125A-125D`.
-/

namespace SsaCompiler.Text.CodeRange

def mem (rs : List (Nat × Nat)) (n : Nat) : Bool :=
  rs.any fun r => r.1 ≤ n && n ≤ r.2

def digitValue (c : Char) : Nat :=
  if c ≤ '9' then c.toNat - '0'.toNat else c.toNat - 'A'.toNat + 10

/-- Reads ranges with a blank between any two of them. `last` is the number before the one that is being
read, `first` says whether that is the start of the same range, and `n` has the digits that have been
read up to here; `scale` is 16 to the power of how many they are. -/
def read (last : Nat) (first : Bool) (scale n : Nat) (text : List Char) : List (Nat × Nat) :=
  let number := last / scale * scale + n
  let range := (if first then last else number, number)
  match text with
  | [] => [range]
  | c :: cs =>
    if c == ' ' then range :: read number false 1 0 cs
    else if c == '-' then read number true 1 0 cs
    else read last first (16 * scale) (16 * n + digitValue c) cs

/-- The ranges of a table of several lines. -/
def table (lines : List String) : List (Nat × Nat) :=
  lines.flatMap fun line => read 0 false 1 0 line.toList

end SsaCompiler.Text.CodeRange
