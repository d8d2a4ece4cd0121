/-!
# Edit distance

The least number of insertions, deletions and replacements of single characters that turn one text
into another, and the suggestion of a name that is close to a misspelt one.

The distance is computed row by row: a row holds, for every prefix of the second text, the distance
to it from a prefix of the first text.
-/

namespace SsaCompiler.Text

/-- The rest of a row behind `left`, from the row above, which starts with the entry above
`left`. -/
def distanceRow (c : Char) : List Char → List Nat → Nat → List Nat
  | d :: ds, diagonal :: above :: row, left =>
    let here :=
      if c == d then diagonal
      else 1 + min diagonal (min above left)
    here :: distanceRow c ds (above :: row) here
  | _, _, _ => []

/-- The last row, from the row of the empty prefix. -/
def distanceRows (target : List Char) : List Char → List Nat → List Nat
  | [], row => row
  | c :: cs, row =>
    let first := row.headD 0 + 1
    distanceRows target cs (first :: distanceRow c target row first)

def editDistance (s t : String) : Nat :=
  let target := t.toList
  (distanceRows target s.toList (List.range (target.length + 1))).getLastD 0

/-- The closer one of a candidate and the best so far. Of equally close candidates the first
stays. -/
def closer (name : String) (best : Option String × Nat) (candidate : String) :
    Option String × Nat :=
  if candidate == name then best
  else
    let d := editDistance name candidate
    if d < best.2 then (some candidate, d) else best

/-- The candidate closest to a name, if it is close enough to be meant: fewer than half of the bytes
of the name, rounded down, and one more are wrong. Of equally close candidates the first in
alphabetical order is taken. -/
def suggest (name : String) (candidates : List String) : Option String :=
  let sorted := candidates.mergeSort fun a b => !(b < a)
  (sorted.foldl (closer name) (none, name.utf8ByteSize / 2 + 1)).1.filter (· != "")

end SsaCompiler.Text
