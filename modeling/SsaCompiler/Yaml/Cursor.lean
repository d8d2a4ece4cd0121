import SsaCompiler.Yaml.Basic

/-!
# Reading scalars

A cursor is a place in a text. Scalars are read from a cursor on: without quotes, with quotes, or as
blocks of lines. In all of them a single line end between words is read as a space, and of several
line ends the first one is dropped; blocks keep their lines if they are marked so.
-/

namespace SsaCompiler.Yaml

variable (c : Cursor)

structure Cursor where
  rest : List Char
  line : Nat := 0
  column : Nat := 0
  index : Nat := 0
  deriving Repr

namespace Cursor

/-- A character that follows; behind the end there are null characters. -/
def peek (n : Nat) : Char :=
  c.rest.getD n '\x00'

def head : Char :=
  c.peek 0

/-- The place behind the next character. -/
def next : Cursor :=
  match c.rest with
  | [] => c
  | x :: xs =>
    if isBreak x then ⟨xs, c.line + 1, 0, c.index + 1⟩
    else ⟨xs, c.line, c.column + 1, c.index + 1⟩

/-- The place behind some characters. -/
def skip (c : Cursor) : Nat → Cursor
  | 0 => c
  | n + 1 => c.next.skip n

def takeWhile (c : Cursor) (p : Char → Bool) : List Char × Cursor :=
  let run := c.rest.takeWhile p
  (run, c.skip run.length)

def fail {α : Type} (p : Problem) : Except Error α :=
  .error ⟨c.line, p⟩

/-- Whether a line starts here with three of a character, and nothing else follows at once. -/
def isMarker (x : Char) : Bool :=
  c.column == 0 && c.peek 0 == x && c.peek 1 == x && c.peek 2 == x && isGap (c.peek 3)

def isDocumentMark : Bool :=
  c.isMarker '-' || c.isMarker '.'

end Cursor

/-! ## Gaps between words -/

/-- What stands between two words. -/
structure Gap where
  broken : Bool := false
  /-- The blanks before the first line end. -/
  blanks : List Char := []
  first : Option Char := none
  more : List Char := []
  deriving Repr

def Gap.text (g : Gap) : List Char :=
  if g.broken then
    if g.first == some '\n' then
      if g.more.isEmpty then [' '] else g.more
    else g.first.toList ++ g.more
  else g.blanks

def Gap.add (g : Gap) (c : Char) : Gap :=
  if isBreak c then
    if g.broken then { g with more := g.more ++ [c] }
    else { g with broken := true, blanks := [], first := some c }
  else if g.broken then g
  else { g with blanks := g.blanks ++ [c] }

def readGap (g : Gap) (c : Cursor) : Gap × Cursor :=
  let (run, c) := c.takeWhile fun x => isBlank x || isBreak x
  (run.foldl Gap.add g, c)

/-- Whether a tab stands in the indentation of a line within a gap, before a given column. -/
def hasTab (column : Nat) : (broken : Bool) → (at' : Nat) → List Char → Bool
  | _, _, [] => false
  | broken, i, c :: cs =>
    if isBreak c then hasTab column true 0 cs
    else (broken && c == '\t' && i < column) || hasTab column broken (i + 1) cs

/-! ## Plain scalars -/

/-- Whether a character ends a plain scalar between brackets. -/
def endsInFlow (c : Char) : Bool :=
  [',', '?', '[', ']', '\x7b', '\x7d'].contains c

/-- The word of a plain scalar at the start of a text. -/
def plainWord (flow : Bool) : List Char → List Char
  | [] => []
  | c :: rest =>
    if isGap c || (c == ':' && isGap (rest.headD '\x00')) || (flow && endsInFlow c) then []
    else c :: plainWord flow rest

/-- A scalar that has been read, the place behind it, and whether a line end is right before it. -/
structure Reading where
  text : List Char
  cursor : Cursor
  /-- Whether the place follows a line end. -/
  newLine : Bool := false

/-- Reads the words of a plain scalar. Outside of brackets its lines have to be indented. -/
def plainFrom (flow : Bool) (indent : Nat) :
    (fuel : Nat) → (text : List Char) → Gap → Cursor → Except Error Reading
  | 0, text, gap, c => .ok ⟨text, c, gap.broken⟩
  | fuel + 1, text, gap, c =>
    if c.isDocumentMark || c.head == '#' then .ok ⟨text, c, gap.broken⟩
    else
      let word := plainWord flow c.rest
      let behind := c.skip word.length
      let gap := if word.isEmpty then gap else {}
      let text := text ++ word
      if !isBlank behind.head && !isBreak behind.head then .ok ⟨text, behind, gap.broken⟩
      else
        let run := behind.rest.takeWhile fun x => isBlank x || isBreak x
        if hasTab indent gap.broken behind.column run then behind.fail .tabIndentation
        else
          let (gap, c) := readGap gap behind
          if !flow && c.column < indent then .ok ⟨text, c, gap.broken⟩
          else
            let more := plainWord flow c.rest
            if more.isEmpty || c.isDocumentMark || c.head == '#' then
              .ok ⟨text, c, gap.broken⟩
            else plainFrom flow indent fuel (text ++ gap.text) gap c

def readPlain (flow : Bool) (indent : Nat) (c : Cursor) : Except Error Reading :=
  plainFrom flow indent (c.rest.length + 1) [] {} c

/-! ## Quoted scalars -/

def escaped? (c : Char) : Option Char :=
  [('0', '\x00'), ('a', '\x07'), ('b', '\x08'), ('t', '\t'), ('\t', '\t'), ('n', '\n'),
    ('v', '\x0b'), ('f', '\x0c'), ('r', '\r'), ('e', '\x1b'), (' ', ' '), ('"', '"'), ('\'', '\''),
    ('/', '/'), ('\\', '\\'), ('N', '\u0085'), ('_', '\u00a0'), ('L', '\u2028'),
    ('P', '\u2029')].lookup c

def escapeWidth? (c : Char) : Option Nat :=
  [('x', 2), ('u', 4), ('U', 8)].lookup c

def hexDigit? (c : Char) : Option Nat :=
  if c.isDigit then some (c.toNat - 48)
  else if 'a' ≤ c && c ≤ 'f' then some (c.toNat - 87)
  else if 'A' ≤ c && c ≤ 'F' then some (c.toNat - 55)
  else none

def hexValue? (digits : List Char) : Option Nat :=
  digits.foldl (fun n d => n.bind fun n => (hexDigit? d).map fun d => n * 16 + d) (some 0)

/-- The character for an escape at a cursor behind the backslash, and the place behind it. -/
def readEscape : Except Error (Char × Cursor) :=
  match escaped? c.head, escapeWidth? c.head with
  | some x, _ => .ok (x, c.next)
  | none, none => c.fail .unknownEscape
  | none, some width =>
    let digits := c.next.rest.take width
    if digits.length < width then c.fail .badHexadecimal
    else
      match hexValue? digits with
      | none => c.fail .badHexadecimal
      | some n =>
        if n.isValidChar then .ok (Char.ofNat n, c.next.skip width) else c.fail .badCodePoint

/-- How a word of a quoted scalar ends. -/
inductive WordEnd where
  | quote
  | gap
  | escapedBreak
  deriving DecidableEq, Repr

def quotedWord (single : Bool) :
    (fuel : Nat) → (text : List Char) → Cursor → Except Error (List Char × WordEnd × Cursor)
  | 0, text, c => .ok (text, .gap, c)
  | fuel + 1, text, c =>
    if isGap c.head then .ok (text, .gap, c)
    else if single then
      if c.head == '\'' then
        if c.peek 1 == '\'' then quotedWord single fuel (text ++ ['\'']) (c.skip 2)
        else .ok (text, .quote, c.next)
      else quotedWord single fuel (text ++ [c.head]) c.next
    else if c.head == '"' then .ok (text, .quote, c.next)
    else if c.head == '\\' then
      if isBreak (c.peek 1) then .ok (text, .escapedBreak, c.skip 2)
      else
        match readEscape c.next with
        | .error e => .error e
        | .ok (x, c) => quotedWord single fuel (text ++ [x]) c
    else quotedWord single fuel (text ++ [c.head]) c.next

def quotedFrom (single : Bool) : (fuel : Nat) → (text : List Char) → Cursor → Except Error Reading
  | 0, _, c => c.fail .endInside
  | fuel + 1, text, c =>
    if c.isDocumentMark then c.fail .documentInside
    else if c.rest.isEmpty then c.fail .endInside
    else
      match quotedWord single (c.rest.length + 1) text c with
      | .error e => .error e
      | .ok (text, .quote, c) => .ok ⟨text, c, false⟩
      | .ok (text, .gap, c) =>
        let (gap, c) := readGap {} c
        quotedFrom single fuel (text ++ gap.text) c
      | .ok (text, .escapedBreak, c) =>
        let (gap, c) := readGap { broken := true } c
        quotedFrom single fuel (text ++ gap.text) c

/-- Reads a quoted scalar from behind its first quote on. -/
def readQuoted (single : Bool) (c : Cursor) : Except Error Reading :=
  quotedFrom single (c.rest.length + 1) [] c

/-! ## Block scalars -/

/-- What becomes of the line ends behind a block. -/
inductive Chomping where
  | clip
  | strip
  | keep
  deriving DecidableEq, Repr

def chomping? (c : Char) : Option Chomping :=
  if c == '+' then some .keep else if c == '-' then some .strip else none

/-- Reads the head of a block: line ends and indentation in either order. -/
def readHeader : Except Error (Chomping × Option Nat × Cursor) := do
  let (chomping, c) :=
    match chomping? c.head with
    | some x => (some x, c.next)
    | none => (none, c)
  if c.head == '0' then c.fail .zeroIndentation
  let (indent, c) := if c.head.isDigit then (some (c.head.toNat - 48), c.next) else (none, c)
  let (chomping, c) :=
    match chomping, indent.bind fun _ => chomping? c.head with
    | none, some x => (some x, c.next)
    | x, _ => (x, c)
  let (_, c) := c.takeWhile isBlank
  let (_, c) := if c.head == '#' then c.takeWhile (!isBreak ·) else ([], c)
  if c.rest.isEmpty then return (chomping.getD .clip, indent, c)
  if !isBreak c.head then c.fail .textBehindHeader
  return (chomping.getD .clip, indent, c.next)

/-- Reads indentation and empty lines: the line ends, and the widest indentation. The indentation of
a block that is known is not exceeded. -/
def blankLines (indent : Option Nat) :
    (fuel : Nat) → (widest : Nat) → (breaks : List Char) → Cursor →
      Except Error (Nat × List Char × Cursor)
  | 0, widest, breaks, c => .ok (widest, breaks, c)
  | fuel + 1, widest, breaks, c =>
    let spaces := c.rest.takeWhile (· == ' ')
    let width := indent.elim spaces.length fun n => min spaces.length (n - c.column)
    let c := c.skip width
    let widest := max widest c.column
    if c.head == '\t' && indent.all (c.column < ·) then c.fail .tabIndentation
    else if isBreak c.head then blankLines indent fuel widest (breaks ++ [c.head]) c.next
    else .ok (widest, breaks, c)

/-- The lines of a block: what has been read, the line end before the line at hand, and the empty
lines behind it. -/
structure Block where
  text : List Char := []
  /-- The line end that is not part of the text yet. -/
  last : List Char := []
  /-- The line ends of the empty lines behind it. -/
  empties : List Char := []
  /-- Whether the line before starts with a blank. -/
  indented : Bool := false

/-- Adds a line to a block. Folded lines are joined with a space unless one of them is indented
further. -/
def Block.addLine (b : Block) (literal : Bool) (line : List Char) : Block :=
  let indented := isBlank (line.headD '\x00')
  let joint :=
    if !literal && !b.indented && !indented && b.last == ['\n'] then
      if b.empties.isEmpty then [' '] else []
    else b.last
  { text := b.text ++ joint ++ b.empties ++ line, last := [], empties := [], indented := indented }

def blockLines (literal : Bool) (indent : Nat) :
    (fuel : Nat) → Block → Cursor → Except Error (Block × Cursor)
  | 0, b, c => .ok (b, c)
  | fuel + 1, b, c =>
    if c.column == indent && !c.rest.isEmpty then
      let (line, c) := c.takeWhile (!isBreak ·)
      let b := b.addLine literal line
      let b := { b with last := c.rest.take 1 }
      match blankLines (some indent) (c.rest.length + 1) 0 [] c.next with
      | .error e => .error e
      | .ok (_, breaks, c) => blockLines literal indent fuel { b with empties := breaks } c
    else .ok (b, c)

/-- Reads a block from behind its mark on. The indentation of what is around it is −1 at the top. -/
def readBlock (literal : Bool) (around : Int) (c : Cursor) : Except Error Reading := do
  let (chomping, given, c) ← readHeader c
  let fixed := given.map fun n => n + around.toNat
  let (widest, breaks, c) ← blankLines fixed (c.rest.length + 1) 0 [] c
  let indent := fixed.getD (max 1 (max widest (around + 1).toNat))
  let (b, c) ← blockLines literal indent (c.rest.length + 1) { empties := breaks } c
  let tail :=
    match chomping with
    | .strip => []
    | .clip => b.last
    | .keep => b.last ++ b.empties
  return ⟨b.text ++ tail, c, true⟩

end SsaCompiler.Yaml
