import SsaCompiler.Text.Compose
import SsaCompiler.Text.Digit
import SsaCompiler.Text.Letter
import SsaCompiler.Text.Quoted
import SsaCompiler.Token.Basic
import SsaCompiler.Token.Keyword

/-!
# Scanning

The scanner cuts a source text into tokens. It looks at the first character of what is left, asks
the rule for that character how far the token reaches, and goes on behind it. Every rule is a
function of the characters that follow the first one and answers how many of them belong to the
token; a token therefore always uses at least one character, and the scan ends.

* Blanks separate tokens. A line feed is a token of its own, without a place.
* Operators are single characters, so `==` is two tokens. The delimiters of comments are operators
  too; the text of a comment is skipped, and removing the delimiters is left to the layout rules.
* A scan ends with a `finish` token, or with an `unexpected` token at the first lexical error.

The number of characters a faulty token uses may exceed what is left by one: an error that is
noticed at the end of the source counts the missing character.
-/

namespace SsaCompiler.Token

variable (c : Cursor)

/-! ## Character classes -/

namespace Scanner

def isBlank (c : Char) : Bool :=
  c == ' ' || c == '\t' || c == '\r'

def isWordStart (c : Char) : Bool :=
  c == '_' || Text.isLetter c

def isWordPart (c : Char) : Bool :=
  isWordStart c || Text.isDecimalDigit c

def isDigit (c : Char) : Bool :=
  '0' ≤ c && c ≤ '9'

def isHexDigit (c : Char) : Bool :=
  isDigit c || ('a' ≤ c && c ≤ 'f') || ('A' ≤ c && c ≤ 'F')

def isBinaryDigit (c : Char) : Bool :=
  c == '0' || c == '1'

def isOperator (c : Char) : Bool :=
  ['.', '=', '+', '-', '*', '/', '<', '>', '?', '!', '^', '&', '~', '$', '|', '%'].contains c

def separator? (c : Char) : Option Kind :=
  match c with
  | ';' => some .semicolon
  | ':' => some .colon
  | ',' => some .comma
  | '\x7b' => some .braceOpen
  | '\x7d' => some .braceClose
  | '(' => some .parenOpen
  | ')' => some .parenClose
  | '[' => some .bracketOpen
  | ']' => some .bracketClose
  | _ => none

end Scanner

/-! ## Lexical errors -/

/-- Why a text is no token. -/
inductive Fault where
  | strayCharacter (c : Char)
  | annotationName
  | twoPoints
  /-- An integer suffix on a number with a decimal point. -/
  | fractionalSuffix (suffix : Char)
  | unsignedFraction
  | trailingCharacter
  /-- A hexadecimal or binary number without digits, or followed by a word character. -/
  | malformedRadix (kind : Kind)
  | unterminated (quote : Char)
  /-- A character literal that does not hold exactly one character. -/
  | characterLength
  /-- An unknown escape; the source may end behind the backslash. -/
  | escape (c : Option Char)
  deriving DecidableEq, Repr

namespace Fault

def code : Fault → Nat
  | .strayCharacter _ | .annotationName | .malformedRadix _ | .characterLength => 101
  | .escape _ => 102
  | .unterminated _ => 103
  | .unsignedFraction => 104
  | .twoPoints => 105
  | .fractionalSuffix _ | .trailingCharacter => 106

def codeName (n : Int) : String :=
  if n == 101 then "invalid token"
  else if n == 102 then "invalid escape sequence"
  else if n == 103 then "missing terminator"
  else if n == 104 then "invalid unsigned literal"
  else if n == 105 then "multiple decimal points"
  else if n == 106 then "invalid literal suffix"
  else "error " ++ toString n

def message : Fault → String
  | .strayCharacter c => "unexpected character " ++ Text.quoteChar c
  | .annotationName => "annotation name expected after '@'"
  | .twoPoints => "multiple decimal points in number"
  | .fractionalSuffix c => "integer suffix " ++ Text.quoteChar c ++ " on a fractional number"
  | .unsignedFraction => "unsigned suffix on a floating point number"
  | .trailingCharacter => "invalid character after number"
  | .malformedRadix kind => "malformed " ++ kind.name.toLower ++ " literal"
  | .unterminated quote => "missing terminating " ++ quote.toString
  | .characterLength => "character literal must hold exactly one character"
  | .escape (some c) => "invalid escape sequence \\" ++ c.toString
  | .escape none => "invalid escape sequence \\�"

end Fault

structure LexError where
  pos : Pos
  fault : Fault
  deriving DecidableEq, Repr

def LexError.message (e : LexError) : String :=
  e.pos.render ++ ": E" ++ toString e.fault.code ++ " " ++ e.fault.message

/-! ## Rules for single tokens -/

/-- The outcome of a rule. `tail` counts the characters behind the first one that belong to it. -/
inductive Lexeme where
  | token (kind : Kind) (text : String) (tail : Nat)
  | faulty (fault : Fault) (tail : Nat)
  deriving DecidableEq, Repr

namespace Scanner

/-- A word: letters, digits and underscores, kept in composed form. -/
def word (first : Char) (rest : List Char) : Lexeme :=
  let part := rest.takeWhile isWordPart
  let text := String.ofList (Text.composeWord (first :: part))
  .token (classify text) text part.length

/-- An annotation: a word behind the sign, which is not part of its text. -/
def annotated (rest : List Char) : Lexeme :=
  match rest with
  | c :: _ =>
    if isWordStart c then
      let name := rest.takeWhile isWordPart
      .token .annotated (String.ofList (Text.composeWord name)) name.length
    else .faulty .annotationName 0
  | [] => .faulty .annotationName 0

/-- A number in another base, behind its two-character mark. Underscores are dropped. -/
def radix (mark : List Char) (kind : Kind) (digit : Char → Bool) (rest : List Char) : Lexeme :=
  let body := rest.takeWhile fun c => digit c || c == '_'
  let digits := body.filter fun c => c != '_'
  let after := rest.dropWhile fun c => digit c || c == '_'
  if digits.isEmpty || after.head?.any isWordPart then
    .faulty (.malformedRadix kind) (body.length + 2)
  else .token kind (String.ofList (mark ++ digits)) (body.length + 1)

/-- The digits of a decimal number and what was seen on the way. -/
structure Mantissa where
  digits : List Char
  length : Nat
  fractional : Bool
  twoPoints : Bool
  deriving DecidableEq, Repr

/-- Adds a character of the source in front, with the characters it contributes. -/
def Mantissa.push (m : Mantissa) (shown : List Char) : Mantissa :=
  { m with digits := shown ++ m.digits, length := m.length + 1 }

/-- Reads digits, underscores and at most one decimal point that a digit follows. -/
def mantissa (fractional : Bool) : List Char → Mantissa
  | [] => ⟨[], 0, fractional, false⟩
  | c :: rest =>
    if isDigit c then (mantissa fractional rest).push [c]
    else if c == '_' then (mantissa fractional rest).push []
    else if c == '.' then
      if fractional then ⟨[], 0, fractional, true⟩
      else if rest.head?.any isDigit then (mantissa true rest).push [c]
      else ⟨[], 0, fractional, false⟩
    else ⟨[], 0, fractional, false⟩

def isSuffix (c : Char) : Bool :=
  ['b', 's', 'i', 'l', 'f', 'd'].contains c.toLower

def suffixKind (c : Char) : Kind :=
  match c.toLower with
  | 'b' => .byte
  | 's' => .short
  | 'l' => .long
  | 'f' => .float
  | 'd' => .double
  | _ => .integer

def unsignedKind : Kind → Kind
  | .byte => .ubyte
  | .short => .ushort
  | .long => .ulong
  | _ => .uinteger

/-- Whether the characters start with an unsigned mark: a `u` that is followed by no word character
or by a suffix letter. -/
def unsignedMark : List Char → Bool
  | c :: rest => c.toLower == 'u' && !rest.head?.any (fun d => isWordPart d && !isSuffix d)
  | [] => false

/-- A decimal number: digits with an optional point, an optional `u` and an optional suffix. -/
def decimal (first : Char) (rest : List Char) : Lexeme :=
  let m := mantissa false rest
  if m.twoPoints then .faulty .twoPoints (m.length + 1)
  else
    let text := String.ofList (first :: m.digits)
    let behind := rest.drop m.length
    let unsigned := unsignedMark behind
    let behindMark := if unsigned then behind.drop 1 else behind
    let marked := m.length + (if unsigned then 1 else 0)
    let suffix := behindMark.head?.filter isSuffix
    let used := marked + (if suffix.isSome then 1 else 0)
    let kind :=
      match suffix with
      | some c => suffixKind c
      | none => if m.fractional then .double else .integer
    if m.fractional && kind != .float && kind != .double then
      .faulty (.fractionalSuffix ((suffix.getD ' ').toLower)) used
    else if unsigned && (kind == .float || kind == .double) then .faulty .unsignedFraction used
    else if (rest.drop used).head?.any isWordPart then .faulty .trailingCharacter (used + 1)
    else .token (if unsigned then unsignedKind kind else kind) text used

/-- A number: hexadecimal behind `0x`, binary behind `0b`, decimal otherwise. -/
def number (first : Char) (rest : List Char) : Lexeme :=
  match rest with
  | mark :: behind =>
    if first == '0' && (mark == 'x' || mark == 'X') then
      radix ['0', 'x'] .hexadecimal isHexDigit behind
    else if first == '0' && mark == 'b' then radix ['0', 'b'] .binary isBinaryDigit behind
    else decimal first rest
  | [] => decimal first rest

/-- The character that stands behind a backslash for `c`. -/
def unescape? (c : Char) : Option Char :=
  match c with
  | 'n' => some '\n'
  | 'r' => some '\r'
  | 't' => some '\t'
  | '\\' => some '\\'
  | '"' => some '"'
  | '\'' => some '\''
  | _ => none

/-- What stands between two quotes. -/
inductive Body where
  /-- The text between the quotes and the number of characters up to and with the closing one. -/
  | closed (text : List Char) (length : Nat)
  /-- The line or the source ends after so many characters. -/
  | unterminated (length : Nat)
  /-- An unknown escape that ends after so many characters. -/
  | escape (c : Option Char) (length : Nat)
  deriving DecidableEq, Repr

/-- Adds `c` in front of a body, written with `width` characters. -/
def Body.push (c : Char) (width : Nat) : Body → Body
  | .closed text length => .closed (c :: text) (length + width)
  | .unterminated length => .unterminated (length + width)
  | .escape e length => .escape e (length + width)

def body (quote : Char) : List Char → Body
  | [] => .unterminated 0
  | c :: rest =>
    if c == '\n' then .unterminated 0
    else if c == quote then .closed [] 1
    else if c == '\\' then
      match rest with
      | [] => .escape none 2
      | e :: behind =>
        match unescape? e with
        | some u => (body quote behind).push u 2
        | none => .escape (some e) 2
    else (body quote rest).push c 1

/-- A text or a character, behind its opening quote. -/
def quoted (quote : Char) (kind : Kind) (rest : List Char) : Lexeme :=
  match body quote rest with
  | .unterminated length => .faulty (.unterminated quote) length
  | .escape c length => .faulty (.escape c) length
  | .closed text length =>
    if kind == .character && text.length != 1 then .faulty .characterLength length
    else .token kind (String.ofList text) length

/-- The rule for the first character `c`, comments, blanks and line ends apart. -/
def lexeme (c : Char) (rest : List Char) : Lexeme :=
  if isWordStart c then word c rest
  else if isDigit c then number c rest
  else if c == '"' then quoted '"' .string rest
  else if c == '\'' then quoted '\'' .character rest
  else if c == '@' then annotated rest
  else if isOperator c then .token .operator c.toString 0
  else
    match separator? c with
    | some kind => .token kind c.toString 0
    | none => .faulty (.strayCharacter c) 0

end Scanner

/-! ## The scan -/

/-- A place in the source: the characters left, and where they start. -/
structure Cursor where
  rest : List Char
  offset : Nat
  line : Nat
  lineStart : Nat
  deriving DecidableEq, Repr

namespace Cursor

def start (source : List Char) : Cursor :=
  ⟨source, 0, 1, 0⟩

/-- Goes `n` characters further on the same line. -/
def move (n : Nat) : Cursor :=
  { c with rest := c.rest.drop n, offset := c.offset + n }

def newline : Cursor :=
  { c with rest := c.rest.drop 1, offset := c.offset + 1, line := c.line + 1,
           lineStart := c.offset + 1 }

/-- The span from here over `n` characters. -/
def span (n : Nat) : Span :=
  ⟨c.offset, c.offset + n, c.lineStart, c.line⟩

/-- The operator character `text` found here. -/
def operator (c : Cursor) (text : String) : Token :=
  ⟨.operator, text, c.span 1⟩

def skipBlanks : Cursor :=
  c.move (c.rest.takeWhile Scanner.isBlank).length

def skipLine : Cursor :=
  c.move (c.rest.takeWhile fun ch => ch != '\n').length

/-- Goes to the closing delimiter of a block comment, or to the end of the source. -/
def skipBlock : (rest : List Char) → (offset line lineStart : Nat) → Cursor
  | [], offset, line, lineStart => ⟨[], offset, line, lineStart⟩
  | c :: rest, offset, line, lineStart =>
    if c == '*' && rest.head? == some '/' then ⟨c :: rest, offset, line, lineStart⟩
    else if c == '\n' then skipBlock rest (offset + 1) (line + 1) (offset + 1)
    else skipBlock rest (offset + 1) line lineStart

theorem move_length (n : Nat) : (c.move n).rest.length = c.rest.length - n := by
  simp [move]

theorem skipBlanks_length : c.skipBlanks.rest.length ≤ c.rest.length := by
  simp [skipBlanks, move_length]

theorem skipLine_length : c.skipLine.rest.length ≤ c.rest.length := by
  simp [skipLine, move_length]

theorem skipBlock_length (rest : List Char) (offset line lineStart : Nat) :
    (skipBlock rest offset line lineStart).rest.length ≤ rest.length := by
  fun_induction skipBlock rest offset line lineStart <;> simp_all <;> omega

end Cursor

namespace Scanner

/-- A line comment: its two delimiters, and the cursor at the end of the line. -/
def lineComment : List Token × Cursor :=
  ([c.operator "/", (c.move 1).operator "/"], (c.move 2).skipLine)

/-- A block comment: its delimiters, and the cursor behind it. -/
def blockComment : List Token × Cursor :=
  let behind := c.move 2
  let close := Cursor.skipBlock behind.rest behind.offset behind.line behind.lineStart
  let opening := [c.operator "/", (c.move 1).operator "*"]
  match close.rest with
  | [] => (opening, close)
  | _ :: _ => (opening ++ [close.operator "*", (close.move 1).operator "/"], close.move 2)

theorem lineComment_length : (lineComment c).2.rest.length ≤ c.rest.length - 2 := by
  have h := Cursor.skipLine_length (c.move 2)
  rw [Cursor.move_length] at h
  exact h

theorem blockComment_length : (blockComment c).2.rest.length ≤ c.rest.length - 2 := by
  have h := Cursor.skipBlock_length (c.move 2).rest (c.move 2).offset (c.move 2).line
    (c.move 2).lineStart
  rw [Cursor.move_length] at h
  unfold blockComment
  simp only
  split
  · exact h
  · rw [Cursor.move_length]
    omega

end Scanner

structure Scan where
  /-- The tokens up to and with the first `finish` or `unexpected` token. -/
  tokens : List Token
  /-- The fault that ended the scan, and the span of the faulty token. -/
  fault : Option (Fault × Span)
  stop : Cursor
  deriving Repr

def Scan.after (tokens : List Token) (s : Scan) : Scan :=
  { s with tokens := tokens ++ s.tokens }

/-- Scans from a cursor to the end of the source or the first fault. -/
def scanFrom (start : Cursor) : Scan :=
  let c := start.skipBlanks
  match _h : c.rest with
  | [] => ⟨[⟨.finish, "", c.span 0⟩], none, c⟩
  | ch :: rest =>
    if ch == '\n' then (scanFrom c.newline).after [{ kind := .newline }]
    else if ch == '/' && rest.head? == some '/' then
      (scanFrom (Scanner.lineComment c).2).after (Scanner.lineComment c).1
    else if ch == '/' && rest.head? == some '*' then
      (scanFrom (Scanner.blockComment c).2).after (Scanner.blockComment c).1
    else
      match Scanner.lexeme ch rest with
      | .token kind text tail =>
        (scanFrom (c.move (tail + 1))).after [⟨kind, text, c.span (tail + 1)⟩]
      | .faulty fault tail =>
        ⟨[⟨.unexpected, "", c.span (tail + 1)⟩], some (fault, c.span (tail + 1)),
          c.move (tail + 1)⟩
termination_by start.rest.length
decreasing_by
  all_goals
    have hBlank : c.rest.length ≤ start.rest.length := Cursor.skipBlanks_length start
    have hRest : c.rest.length = rest.length + 1 := by simp [_h]
  · have hNext : c.newline.rest.length = c.rest.length - 1 := by simp [Cursor.newline]
    show c.newline.rest.length < start.rest.length
    omega
  · have hNext := Scanner.lineComment_length c
    show (Scanner.lineComment c).2.rest.length < start.rest.length
    omega
  · have hNext := Scanner.blockComment_length c
    show (Scanner.blockComment c).2.rest.length < start.rest.length
    omega
  · show (c.move (tail + 1)).rest.length < start.rest.length
    rw [Cursor.move_length]
    omega

def scan (source : List Char) : Scan :=
  scanFrom (Cursor.start source)

/-- The token that every request behind the end of a scan yields. -/
def Scan.beyond (s : Scan) : Token :=
  ⟨.finish, "", s.stop.span 0⟩

/-- The lexical error of a scan of `file`, if there is one. -/
def Scan.error? (s : Scan) (file : String) : Option LexError :=
  s.fault.map fun (fault, span) => ⟨span.pos file, fault⟩

def tokenize (file : String) (source : List Char) : Except LexError (List Token) :=
  let s := scan source
  match s.error? file with
  | some e => .error e
  | none => .ok s.tokens

end SsaCompiler.Token
