/-!
# What two texts have in common

Two lists of lines are compared by their longest common run, then by the longest common runs before
and behind it, and so on. Of runs of the same length the first one of the first list wins, and for
it the first one of the second list.

In a long second list, lines that occur often do not start a run, since they tell nothing; they only
make a run that is found longer.
-/

namespace SsaCompiler.Diff

/-- A common run: where it starts in either list, and its length. -/
structure Run where
  first : Nat
  second : Nat
  size : Nat
  deriving DecidableEq, Repr

/-- A part of either list. -/
structure Window where
  first : Nat
  firstEnd : Nat
  second : Nat
  secondEnd : Nat
  deriving DecidableEq, Repr, Inhabited

/-- From how many lines on a list is long. -/
def longFrom : Nat := 200

/-- Whether a line is too frequent in a list to start a run. -/
def isFrequent (ys : List String) (y : String) : Bool :=
  longFrom ≤ ys.length && ys.length / 100 + 1 < ys.count y

/-- The places where lines of the second list may start a run; the others are blank. -/
def anchors (ys : List String) : List (Option String) :=
  ys.map fun y => if isFrequent ys y then none else some y

/-- One row of the comparison: for each place of the second list, the length of the common run that
ends there, and the best run so far. The lengths before are those of the row above, shifted by
one. -/
def row (x : String) (i : Nat) : (j : Nat) → List (Option String) → List Nat → Run → List Nat × Run
  | _, [], _, best => ([], best)
  | j, y :: ys, before, best =>
    let size := if y == some x then before.headD 0 + 1 else 0
    let best := if best.size < size then ⟨i + 1 - size, j + 1 - size, size⟩ else best
    let (rest, best) := row x i (j + 1) ys (before.drop 1) best
    (size :: rest, best)

def rows (start : Nat) (ys : List (Option String)) :
    (i : Nat) → List String → List Nat → Run → Run
  | _, [], _, best => best
  | i, x :: xs, above, best =>
    let (sizes, best) := row x i start ys (0 :: above) best
    rows start ys (i + 1) xs sizes best

def agreement : List String → List String → Nat
  | x :: xs, y :: ys => if x == y then agreement xs ys + 1 else 0
  | _, _ => 0

def slice {α : Type} (xs : List α) (start stop : Nat) : List α :=
  (xs.take stop).drop start

/-- The longest common run in a window, made longer on both sides as far as the lines agree. -/
def longest (xs ys : List String) (marks : List (Option String)) (w : Window) : Run :=
  let r := rows w.second (slice marks w.second w.secondEnd) w.first
    (slice xs w.first w.firstEnd) [] ⟨w.first, w.second, 0⟩
  let back := agreement (slice xs w.first r.first).reverse (slice ys w.second r.second).reverse
  let ahead := agreement (slice xs (r.first + r.size) w.firstEnd)
    (slice ys (r.second + r.size) w.secondEnd)
  ⟨r.first - back, r.second - back, r.size + back + ahead⟩

/-- The common runs in a window in order. Each run found leaves smaller windows, so that the lines
of the first list bound the depth. -/
def runsIn (xs ys : List String) (marks : List (Option String)) : (depth : Nat) → Window → List Run
  | 0, _ => []
  | depth + 1, w =>
    let r := longest xs ys marks w
    if r.size == 0 then []
    else
      runsIn xs ys marks depth ⟨w.first, r.first, w.second, r.second⟩
        ++ r :: runsIn xs ys marks depth
          ⟨r.first + r.size, w.firstEnd, r.second + r.size, w.secondEnd⟩

/-- Joins runs that follow each other without a gap. -/
def merge : List Run → List Run
  | [] => []
  | r :: rs =>
    match merge rs with
    | [] => [r]
    | s :: rest =>
      if r.first + r.size == s.first && r.second + r.size == s.second then
        ⟨r.first, r.second, r.size + s.size⟩ :: rest
      else r :: s :: rest

def commonRuns (xs ys : List String) : List Run :=
  merge (runsIn xs ys (anchors ys) (xs.length + 1) ⟨0, xs.length, 0, ys.length⟩)

end SsaCompiler.Diff
