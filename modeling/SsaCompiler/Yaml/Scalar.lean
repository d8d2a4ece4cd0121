import SsaCompiler.Number.FloatText
import SsaCompiler.Number.Radix
import SsaCompiler.Text.Quoted
import SsaCompiler.Yaml.Basic

/-!
# Scalars and their kinds

A scalar that is written without quotes may be read as something else than a text: as nothing, a
truth value, a number or a time. A text that could be taken for one of these is written with quotes,
and so is a text that has another meaning in the format.
-/

namespace SsaCompiler.Yaml

variable (cs : List Char)

/-! ## Kinds -/

inductive ScalarKind where
  | text | null | boolean | integer | float | time | merge
  deriving DecidableEq, Repr

namespace ScalarKind

def tag : ScalarKind → String
  | .text => "!!str"
  | .null => "!!null"
  | .boolean => "!!bool"
  | .integer => "!!int"
  | .float => "!!float"
  | .time => "!!timestamp"
  | .merge => "!!merge"

def words : List (String × ScalarKind) :=
  (["", "~", "null", "Null", "NULL"].map (·, .null))
    ++ (["true", "True", "TRUE", "false", "False", "FALSE"].map (·, .boolean))
    ++ ([".nan", ".NaN", ".NAN", ".inf", ".Inf", ".INF", "+.inf", "+.Inf", "+.INF", "-.inf",
      "-.Inf", "-.INF"].map (·, .float))
    ++ [("<<", .merge)]

/-! ## Numbers and times -/

/-- Splits digits from a text, at least one and at most as many as given. -/
def digits? (most : Nat) (cs : List Char) : Option (Nat × List Char) :=
  let run := (cs.take most).takeWhile Char.isDigit
  (Number.ofDigits? 10 run).map fun n => (n, cs.drop run.length)

def char? (c : Char) : List Char → Option (List Char)
  | [] => none
  | x :: xs => if x == c then some xs else none

def daysIn (year month : Nat) : Nat :=
  if month == 2 then
    if year % 4 == 0 && (year % 100 != 0 || year % 400 == 0) then 29 else 28
  else if [4, 6, 9, 11].contains month then 30
  else 31

def date? : Option (List Char) := do
  let year := cs.takeWhile Char.isDigit
  if year.length != 4 then none
  let (y, rest) ← digits? 4 cs
  let rest ← char? '-' rest
  let (month, rest) ← digits? 2 rest
  let rest ← char? '-' rest
  let (day, rest) ← digits? 2 rest
  if 1 ≤ month && month ≤ 12 && 1 ≤ day && day ≤ daysIn y month then some rest else none

/-- Splits a time of day from a text. Seconds may have a fraction. -/
def clock? : Option (List Char) := do
  let (hour, rest) ← digits? 2 cs
  let rest ← char? ':' rest
  let (minute, rest) ← digits? 2 rest
  let rest ← char? ':' rest
  let (second, rest) ← digits? 2 rest
  if 24 ≤ hour || 60 ≤ minute || 60 ≤ second then none
  match rest with
  | mark :: d :: more =>
    if (mark == '.' || mark == ',') && d.isDigit then some (more.dropWhile Char.isDigit)
    else some rest
  | _ => some rest

/-- Whether a text is an offset of a time zone. -/
def isZone : List Char → Bool
  | ['Z'] => true
  | [sign, h, h', ':', m, m'] =>
    (sign == '+' || sign == '-')
      && ((Number.ofDigits? 10 [h, h']).any (· ≤ 24))
      && ((Number.ofDigits? 10 [m, m']).any (· < 60))
  | _ => false

/-- Whether a text is a date, with or without a time of day. -/
def isTime : Bool :=
  match date? cs with
  | none => false
  | some [] => true
  | some (' ' :: rest) => clock? rest == some []
  | some (c :: rest) => (c == 'T' || c == 't') && (clock? rest).any isZone

/-- Whether a text is a number with a point or an exponent, or only with digits. -/
def isDecimal : Bool :=
  let (_, cs) := Number.splitSign cs
  let whole := cs.takeWhile Char.isDigit
  let rest := cs.drop whole.length
  let (fraction, rest) :=
    match rest with
    | '.' :: more => (some (more.takeWhile Char.isDigit), more.dropWhile Char.isDigit)
    | _ => (none, rest)
  let hasDigits := !whole.isEmpty || fraction.any (!·.isEmpty)
  let exponent :=
    match rest with
    | [] => true
    | e :: more =>
      let (_, ds) := Number.splitSign more
      (e == 'e' || e == 'E') && !ds.isEmpty && ds.all Char.isDigit
  hasDigits && exponent

/-- Whether a text is read as a number of the usual size. -/
def isFloat : Bool :=
  (Number.readFloat? .double cs).any fun (_, fits) => fits

/-- The kind of a text that starts with a digit or a sign. -/
def numberKind : ScalarKind :=
  let bare := cs.filter (· != '_')
  if isTime cs then .time
  else if (Number.readSigned 64 bare).toOption.isSome
      || (Number.readUnsigned 64 bare).toOption.isSome then .integer
  else if isDecimal bare && isFloat bare then .float
  else .text

def ofPlain (s : String) : ScalarKind :=
  match words.lookup s with
  | some k => k
  | none =>
    match s.toList with
    | [] => .null
    | c :: cs =>
      if c == '.' then if isFloat (c :: cs) then .float else .text
      else if c.isDigit || c == '+' || c == '-' then numberKind (c :: cs)
      else .text

end ScalarKind

/-! ## Writing -/

/-- Words that older readers take for truth values. -/
def oldBooleans : List String :=
  ["y", "Y", "yes", "Yes", "YES", "on", "On", "ON", "n", "N", "no", "No", "NO", "off", "Off", "OFF"]

/-- Whether older readers take a text for a number with base sixty. -/
def isSexagesimal (s : String) : Bool :=
  let (_, cs) := Number.splitSign s.toList
  match (String.ofList cs).splitOn ":" with
  | first :: rest@(_ :: _) =>
    let group (t : String) : Bool :=
      match t.toList with
      | [d] => d.isDigit
      | [d, e] => '0' ≤ d && d ≤ '5' && e.isDigit
      | _ => false
    let last := (rest.getLast?.getD "").splitOn "."
    let lastFits :=
      match last with
      | [t] => group t
      | [t, fraction] => group t && fraction.toList.all fun c => c.isDigit || c == '_'
      | _ => false
    (first.toList.head?.any Char.isDigit) && (first.toList.all fun c => c.isDigit || c == '_')
      && rest.dropLast.all group && lastFits
  | _ => false

def isShown (c : Char) : Bool :=
  let n := c.toNat
  c == '\n' || (0x20 ≤ n && n ≤ 0x7E) || (0xA0 ≤ n && n ≤ 0xFFFD && n != 0xFEFF)

def startMarks : List Char :=
  ['#', ',', '[', ']', '\x7b', '\x7d', '&', '*', '!', '|', '>', '\'', '"', '%', '@', '\x60']

/-- Whether a text has another meaning behind its first character: a colon before a blank, or a hash
behind one. -/
def hasMark : (before : Char) → List Char → Bool
  | _, [] => false
  | before, c :: cs =>
    (c == ':' && isBlankOrEnd cs) || (c == '#' && isGap before) || hasMark c cs
where
  isBlankOrEnd (cs : List Char) : Bool :=
    match cs with
    | [] => true
    | c :: _ => isBlank c

/-- Whether a text has another meaning if it is written without quotes. -/
def hasIndicator : Bool :=
  match cs with
  | [] => false
  | c :: rest =>
    startMarks.contains c
      || ((c == '?' || c == ':' || c == '-') && hasMark.isBlankOrEnd rest)
      || ["---".toList, "...".toList].any (List.isPrefixOf · cs)
      || hasMark c rest

/-- Whether two characters follow each other somewhere, the first and the second of given kinds. -/
def hasPair (p q : Char → Bool) : List Char → Bool
  | c :: d :: rest => (p c && q d) || hasPair p q (d :: rest)
  | _ => false

inductive Style where
  | plain | single | double | literal
  deriving DecidableEq, Repr

def styleOf (s : String) : Style :=
  let cs := s.toList
  let isSpace (c : Char) : Bool := c == ' '
  let special := cs.any fun c => c != '\t' && !isShown c
  let spaceBreak := hasPair isSpace isBreak cs
  let breakSpace := hasPair isBreak isSpace cs
  let edge (c : Option Char) : Bool := c.any fun c => isSpace c || isBreak c
  let isText := ScalarKind.ofPlain s == .text && !isSexagesimal s && !oldBooleans.contains s
  if cs.contains '\n' then
    if special || spaceBreak || cs.getLast? == some ' ' then .double else .literal
  else if !isText then .double
  else if special || spaceBreak || breakSpace || cs.contains '\t' then .double
  else if edge cs.head? || edge cs.getLast? || cs.any isBreak || hasIndicator cs then .single
  else .plain

def escapes : List (Nat × Char) :=
  [(0, '0'), (7, 'a'), (8, 'b'), (9, 't'), (0xA, 'n'), (0xB, 'v'), (0xC, 'f'), (0xD, 'r'),
    (0x1B, 'e'), (0x22, '"'), (0x5C, '\\'), (0x85, 'N'), (0xA0, '_'), (0x2028, 'L'), (0x2029, 'P')]

def doubleChar (c : Char) : List Char :=
  if isShown c && !isBreak c && c != '"' && c != '\\' then [c]
  else
    match escapes.lookup c.toNat with
    | some e => ['\\', e]
    | none =>
      let n := c.toNat
      let (mark, width) := if n ≤ 0xFF then ('x', 2) else if n ≤ 0xFFFF then ('u', 4) else ('U', 8)
      '\\' :: mark :: (Text.Quoted.hex width n).map Char.toUpper

/-- The characters between single quotes. Lines behind a line end are indented. -/
def singleChars (indent : Nat) : (broken : Bool) → List Char → List Char
  | _, [] => []
  | broken, c :: cs =>
    if isBreak c then c :: singleChars indent true cs
    else
      let before := if broken then List.replicate indent ' ' else []
      before ++ (if c == '\'' then ['\'', '\''] else [c]) ++ singleChars indent false cs

/-- The lines of a block. Lines that are not empty are indented. -/
def literalChars (indent : Nat) : (broken : Bool) → List Char → List Char
  | _, [] => []
  | broken, c :: cs =>
    if isBreak c then c :: literalChars indent true cs
    else
      let before := if broken then List.replicate indent ' ' else []
      before ++ c :: literalChars indent false cs

/-- The head of a block: the indentation if the text starts with a blank, and what becomes of the
line ends behind it. -/
def literalHead : String :=
  let blank := cs.head?.any fun c => c == ' ' || isBreak c
  let chomping :=
    match cs.reverse with
    | [] => "-"
    | c :: rest =>
      if !isBreak c then "-"
      else if rest.isEmpty || rest.head?.any isBreak then "+"
      else ""
  "|" ++ (if blank then "2" else "") ++ chomping

/-- A text as a scalar whose further lines have a given indentation. -/
def writeScalar (indent : Nat) (s : String) : String :=
  let cs := s.toList
  match styleOf s with
  | .plain => s
  | .single => "'" ++ String.ofList (singleChars indent false cs) ++ "'"
  | .double => "\"" ++ String.ofList (cs.flatMap doubleChar) ++ "\""
  | .literal => literalHead cs ++ "\n" ++ String.ofList (literalChars indent true cs)

/-- Ends the line of a scalar, unless it ends with one. -/
def endLine (s : String) : String :=
  if s.endsWith "\n" then s else s ++ "\n"

end SsaCompiler.Yaml
