import SsaCompiler.Yaml.Cursor

/-!
# Tokens

A text falls into tokens from left to right. Indentation is turned into marks for the start and the
end of a block. A key in front of a colon is only known for a key when the colon is reached, so the
places where a key may have started are remembered, one for each pair of brackets around, and the
mark is put there afterwards.
-/

namespace SsaCompiler.Yaml

/-- A place where a key may have started. -/
structure KeyStart where
  required : Bool
  tokens : Nat
  cursor : Cursor

structure Scanner where
  cursor : Cursor
  tokens : List Token := []
  /-- The column of the block at hand; −1 outside of all blocks. -/
  indent : Int := -1
  /-- The columns of the blocks around it. -/
  indents : List Int := []
  keyAllowed : Bool := true
  /-- Where a key may have started outside of brackets. -/
  outerKey : Option KeyStart := none
  /-- The same for each pair of brackets around, the innermost first. -/
  innerKeys : List (Option KeyStart) := []
  done : Bool := false

namespace Scanner

variable (s : Scanner)

def inFlow : Bool :=
  !s.innerKeys.isEmpty

/-- Appends a token that starts at the current place. -/
def emit (l : Lexeme) : Scanner :=
  { s with tokens := s.tokens ++ [⟨l, s.cursor.line⟩] }

/-- Inserts a token behind a number of tokens. -/
def insert (n line : Nat) (l : Lexeme) : Scanner :=
  { s with tokens := s.tokens.take n ++ ⟨l, line⟩ :: s.tokens.drop n }

def skip (s : Scanner) (n : Nat) : Scanner :=
  { s with cursor := s.cursor.skip n }

/-! ## Keys -/

/-- Where the innermost key may have started. -/
def keyStart : Option KeyStart :=
  match s.innerKeys with
  | [] => s.outerKey
  | k :: _ => k

/-- Changes where the innermost key may have started. -/
def setKeyStart (k : Option KeyStart) : Scanner :=
  match s.innerKeys with
  | [] => { s with outerKey := k }
  | _ :: ks => { s with innerKeys := k :: ks }

/-- No key has started. It is a problem if one must have. -/
def dropKey : Except Error Scanner :=
  match s.keyStart with
  | some k => if k.required then k.cursor.fail .missingColon else .ok (s.setKeyStart none)
  | none => .ok s

def saveKey : Except Error Scanner :=
  if s.keyAllowed then do
    let s ← s.dropKey
    let required := !s.inFlow && s.indent == s.cursor.column
    return s.setKeyStart (some ⟨required, s.tokens.length, s.cursor⟩)
  else .ok s

/-- The farthest that a colon may be from the start of its key. -/
def keyReach : Nat := 1024

/-- Where the key of a colon at the current place has started, if it may have. A key stays on its
line. -/
def validKey : Except Error (Option KeyStart) :=
  match s.keyStart with
  | none => .ok none
  | some k =>
    if k.cursor.line < s.cursor.line || k.cursor.index + keyReach < s.cursor.index then
      if k.required then k.cursor.fail .missingColon else .ok none
    else .ok (some k)

/-! ## Indentation -/

/-- Starts a block at a column, unless it has been started. The mark goes behind a number of
tokens. -/
def openBlock (column n line : Nat) (l : Lexeme) : Scanner :=
  if s.inFlow || (column : Int) ≤ s.indent then s
  else { s.insert n line l with indent := column, indents := s.indent :: s.indents }

/-- Ends the innermost blocks as long as they are deeper than a column. -/
def closeFrom (column : Int) (line : Nat) :
    (indent : Int) → (indents : List Int) → List Token × Int × List Int
  | indent, [] => ([], indent, [])
  | indent, i :: is =>
    if column < indent then
      let (ts, indent, indents) := closeFrom column line i is
      (⟨.blockEnd, line⟩ :: ts, indent, indents)
    else ([], indent, i :: is)

def closeBlocks (column : Int) : Scanner :=
  if s.inFlow then s
  else
    let (ts, indent, indents) := closeFrom column s.cursor.line s.indent s.indents
    { s with tokens := s.tokens ++ ts, indent := indent, indents := indents }

/-! ## Blanks and comments -/

/-- Moves over blanks, comments and line ends. Outside of brackets a key may start on a new line,
and no tab may stand where a key may start. -/
def skipBlanks : (fuel : Nat) → Scanner → Scanner
  | 0, s => s
  | fuel + 1, s =>
    let c := s.cursor
    let c := if c.column == 0 && c.head == '\ufeff' then c.next else c
    let tabs := s.inFlow || !s.keyAllowed
    let (_, c) := c.takeWhile fun x => x == ' ' || (tabs && x == '\t')
    let (_, c) := if c.head == '#' then c.takeWhile (!isBreak ·) else ([], c)
    if isBreak c.head then
      skipBlanks fuel { s with cursor := c.next, keyAllowed := s.keyAllowed || !s.inFlow }
    else { s with cursor := c }

/-! ## Kinds of tokens -/

def streamEnd (s : Scanner) : Except Error Scanner := do
  let s ← (s.closeBlocks (-1)).dropKey
  return { s.emit .streamEnd with keyAllowed := false, done := true }

def documentMark (l : Lexeme) : Except Error Scanner := do
  let s ← (s.closeBlocks (-1)).dropKey
  return { (s.emit l).skip 3 with keyAllowed := false }

/-- A line with a directive. Only the version is known, and only one is understood. -/
def directive (s : Scanner) : Except Error Scanner := do
  let s ← (s.closeBlocks (-1)).dropKey
  let (line, c) := s.cursor.takeWhile (!isBreak ·)
  let text := line.takeWhile (· != '#')
  let words := ((String.ofList text).splitOn " ").filter (· != "")
  match words with
  | ["%YAML", "1.1"] => return { s.emit .directive with cursor := c, keyAllowed := false }
  | ["%YAML", _] => s.cursor.fail .incompatibleVersion
  | _ => s.cursor.fail .badDirective

def openFlow (l : Lexeme) : Except Error Scanner := do
  let s ← s.saveKey
  return { (s.emit l).skip 1 with keyAllowed := true, innerKeys := none :: s.innerKeys }

def closeFlow (l : Lexeme) : Except Error Scanner := do
  let s ← s.dropKey
  return { (s.emit l).skip 1 with keyAllowed := false, innerKeys := s.innerKeys.drop 1 }

def comma (s : Scanner) : Except Error Scanner := do
  let s ← s.dropKey
  return { (s.emit .comma).skip 1 with keyAllowed := true }

def entry (s : Scanner) : Except Error Scanner := do
  if !s.inFlow && !s.keyAllowed then s.cursor.fail .entryNotAllowed
  let c := s.cursor
  let s ← (s.openBlock c.column s.tokens.length c.line .sequenceStart).dropKey
  return { (s.emit .entry).skip 1 with keyAllowed := true }

/-- A question mark in front of a key. -/
def key (s : Scanner) : Except Error Scanner := do
  if !s.inFlow && !s.keyAllowed then s.cursor.fail .keyNotAllowed
  let c := s.cursor
  let s ← (s.openBlock c.column s.tokens.length c.line .mappingStart).dropKey
  return { (s.emit .key).skip 1 with keyAllowed := !s.inFlow }

def value (s : Scanner) : Except Error Scanner := do
  match ← s.validKey with
  | some k =>
    let line := k.cursor.line
    let s := (s.insert k.tokens line .key).openBlock k.cursor.column k.tokens line .mappingStart
    return { ((s.setKeyStart none).emit .value).skip 1 with keyAllowed := false }
  | none =>
    if !s.inFlow && !s.keyAllowed then s.cursor.fail .valueNotAllowed
    let c := s.cursor
    let s := (s.setKeyStart none).openBlock c.column s.tokens.length c.line .mappingStart
    return { (s.emit .value).skip 1 with keyAllowed := !s.inFlow }

def endsAnchor (c : Char) : Bool :=
  isGap c || ['?', ':', ',', ']', '\x7d', '%', '@', '\x60'].contains c

def anchor (make : String → Lexeme) : Except Error Scanner := do
  let s ← s.saveKey
  let (name, c) := s.cursor.next.takeWhile isWord
  if name.isEmpty || !endsAnchor c.head then
    s.cursor.fail .badAnchor
  return { s.emit (make (String.ofList name)) with cursor := c, keyAllowed := false }

def isTagChar (c : Char) : Bool :=
  isWord c || [';', '/', '?', ':', '@', '&', '=', '+', '$', '.', '!', '~', '*', '\'', '(', ')', '%',
    ',', '[', ']', '<', '>'].contains c

def tag (s : Scanner) : Except Error Scanner := do
  let s ← s.saveKey
  let (name, c) := s.cursor.takeWhile isTagChar
  if !isGap c.head then s.cursor.fail .badTag
  return { s.emit (.tag (String.ofList name)) with cursor := c, keyAllowed := false }

def block (literal : Bool) : Except Error Scanner := do
  let s ← s.dropKey
  let r ← readBlock literal s.indent s.cursor.next
  return { s.emit (.scalar false (String.ofList r.text)) with
    cursor := r.cursor, keyAllowed := true }

def quoted (single : Bool) : Except Error Scanner := do
  let s ← s.saveKey
  let r ← readQuoted single s.cursor.next
  return { s.emit (.scalar false (String.ofList r.text)) with
    cursor := r.cursor, keyAllowed := false }

def plain : Except Error Scanner := do
  let s ← s.saveKey
  let r ← readPlain s.inFlow (s.indent + 1).toNat s.cursor
  return { s.emit (.scalar true (String.ofList r.text)) with
    cursor := r.cursor, keyAllowed := r.newLine }

/-- Characters that start no plain scalar. -/
def indicators : List Char :=
  ['-', '?', ':', ',', '[', ']', '\x7b', '\x7d', '#', '&', '*', '!', '|', '>', '\'', '"', '%', '@',
    '\x60']

/-- Whether a plain scalar starts at the current place. -/
def startsPlain : Bool :=
  let c := s.cursor
  (!isGap c.head && !indicators.contains c.head)
    || (c.head == '-' && !isBlank (c.peek 1))
    || (!s.inFlow && (c.head == '?' || c.head == ':') && !isGap (c.peek 1))

def step : Except Error Scanner :=
  let s := skipBlanks (s.cursor.rest.length + 1) s
  let s := s.closeBlocks s.cursor.column
  let c := s.cursor
  let spaced := isGap (c.peek 1)
  if c.rest.isEmpty then s.streamEnd
  else if c.column == 0 && c.head == '%' then s.directive
  else if c.isMarker '-' then s.documentMark .documentStart
  else if c.isMarker '.' then s.documentMark .documentEnd
  else if c.head == '[' then s.openFlow .openBracket
  else if c.head == '\x7b' then s.openFlow .openBrace
  else if c.head == ']' then s.closeFlow .closeBracket
  else if c.head == '\x7d' then s.closeFlow .closeBrace
  else if c.head == ',' then s.comma
  else if c.head == '-' && spaced then s.entry
  else if c.head == '?' && (s.inFlow || spaced) then s.key
  else if c.head == ':' && (s.inFlow || spaced) then s.value
  else if c.head == '*' then s.anchor .alias
  else if c.head == '&' then s.anchor .anchor
  else if c.head == '!' then s.tag
  else if c.head == '|' && !s.inFlow then s.block true
  else if c.head == '>' && !s.inFlow then s.block false
  else if c.head == '\'' then s.quoted true
  else if c.head == '"' then s.quoted false
  else if s.startsPlain then s.plain
  else c.fail .strangeCharacter

end Scanner

/-- The tokens of a text up to the end or up to a problem. -/
structure Scan where
  tokens : List Token
  error : Option Error

/-- How many tokens are read ahead of the one that is looked at. -/
def lookahead : Nat := 2

/-- Reads tokens as long as there are any. Of the tokens before a problem the last ones are never
looked at. -/
def Scanner.run : (fuel : Nat) → Scanner → Scan
  | 0, s => ⟨s.tokens, none⟩
  | fuel + 1, s =>
    match s.step with
    | .error e => ⟨s.tokens.take (s.tokens.length - lookahead), some e⟩
    | .ok s => if s.done then ⟨s.tokens, none⟩ else run fuel s

def scan (text : List Char) : Scan :=
  if text.all isAllowed then
    let cs := unifyBreaks text
    let cs := if cs.head? == some '\ufeff' then cs.drop 1 else cs
    Scanner.run (cs.length + 2) { cursor := { rest := cs } }
  else
    let before := text.takeWhile isAllowed
    ⟨[], some ⟨before.count '\n', .controlCharacter⟩⟩

end SsaCompiler.Yaml
