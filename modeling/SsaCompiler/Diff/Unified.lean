import SsaCompiler.Diff.Matching

/-!
# Unified differences

The difference of two texts is written as hunks. A hunk holds lines that only one of the texts has,
with a few common lines around them.
-/

namespace SsaCompiler.Diff

/-- What becomes of the lines of a part. -/
inductive Change where
  | keep
  /-- They are only in the first text, only in the second one, or both. -/
  | swap
  deriving DecidableEq, Repr, Inhabited

structure Part where
  change : Change
  window : Window
  deriving DecidableEq, Repr, Inhabited

/-- The parts between and at common runs, from a place of either text on. -/
def partsFrom (i j iEnd jEnd : Nat) : List Run → List Part
  | [] => if i < iEnd || j < jEnd then [⟨.swap, ⟨i, iEnd, j, jEnd⟩⟩] else []
  | r :: rs =>
    let before := if i < r.first || j < r.second then [⟨.swap, ⟨i, r.first, j, r.second⟩⟩] else []
    before ++ ⟨.keep, ⟨r.first, r.first + r.size, r.second, r.second + r.size⟩⟩
      :: partsFrom (r.first + r.size) (r.second + r.size) iEnd jEnd rs

def parts (xs ys : List String) : List Part :=
  partsFrom 0 0 xs.length ys.length (commonRuns xs ys)

/-- How many common lines a hunk shows on either side. -/
def context : Nat := 3

def Window.start (w : Window) : Window :=
  { w with firstEnd := min w.firstEnd (w.first + context),
           secondEnd := min w.secondEnd (w.second + context) }

def Window.tail (w : Window) : Window :=
  { w with first := max w.first (w.firstEnd - context),
           second := max w.second (w.secondEnd - context) }

/-- Cuts common lines off before the first change. -/
def trimStart : List Part → List Part
  | ⟨.keep, w⟩ :: ps => ⟨.keep, w.tail⟩ :: ps
  | ps => ps

/-- Cuts common lines off behind the last change. -/
def trimEnd : List Part → List Part
  | [] => []
  | [⟨.keep, w⟩] => [⟨.keep, w.start⟩]
  | p :: ps => p :: trimEnd ps

/-- Divides parts into hunks at long common runs. The parts of the hunk at hand come with the last
one first. -/
def hunksFrom (hunk : List Part) : List Part → List (List Part)
  | [] => [hunk.reverse]
  | ⟨.keep, w⟩ :: ps =>
    if context + context < w.firstEnd - w.first then
      (⟨.keep, w.start⟩ :: hunk).reverse :: hunksFrom [⟨.keep, w.tail⟩] ps
    else hunksFrom (⟨.keep, w⟩ :: hunk) ps
  | p :: ps => hunksFrom (p :: hunk) ps

def showsChange (hunk : List Part) : Bool :=
  hunk.any fun p => p.change == .swap

def hunks (xs ys : List String) : List (List Part) :=
  (hunksFrom [] (trimEnd (trimStart (parts xs ys)))).filter showsChange

/-- Lines in the head of a hunk: the number of the first one, and how many there are unless it is
one. -/
def rangeText (start stop : Nat) : String :=
  let size := stop - start
  if size == 1 then toString (start + 1)
  else toString (if size == 0 then start else start + 1) ++ "," ++ toString size

def partText (xs ys : List String) (p : Part) : String :=
  let w := p.window
  let marked (mark : String) (lines : List String) : String := String.join (lines.map (mark ++ ·))
  match p.change with
  | .keep => marked " " (slice xs w.first w.firstEnd)
  | .swap =>
    marked "-" (slice xs w.first w.firstEnd) ++ marked "+" (slice ys w.second w.secondEnd)

def hunkText (xs ys : List String) (hunk : List Part) : String :=
  let first := (hunk.head?.getD default).window
  let last := (hunk.getLast?.getD default).window
  "@@ -" ++ rangeText first.first last.firstEnd ++ " +" ++ rangeText first.second last.secondEnd
    ++ " @@\n" ++ String.join (hunk.map (partText xs ys))

/-- The lines of a text, each with its line feed. What follows the last line feed is a line too,
even if it is empty. -/
def lines (s : String) : List String :=
  (s.splitOn "\n").map (· ++ "\n")

/-- The difference of two texts of given names. It is empty if they are the same. -/
def unified (oldName newName old new : String) : String :=
  let xs := lines old
  let ys := lines new
  match hunks xs ys with
  | [] => ""
  | hs =>
    "--- " ++ oldName ++ "\n+++ " ++ newName ++ "\n" ++ String.join (hs.map (hunkText xs ys))

end SsaCompiler.Diff
