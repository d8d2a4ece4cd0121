/-!
# Documents of nested values

The text format of manifests: scalars, sequences and mappings, nested by indentation or by brackets.
This module has the tokens that a text falls into, the tree that they form, and the problems that a
text can have.
-/

namespace SsaCompiler.Yaml

/-! ## Characters -/

def isBreak (c : Char) : Bool :=
  c == '\n' || c == '\u2028' || c == '\u2029'

def isBlank (c : Char) : Bool :=
  c == ' ' || c == '\t'

/-- Whether a character is blank, ends a line, or stands for the end of the text. -/
def isGap (c : Char) : Bool :=
  isBlank c || isBreak c || c == '\x00'

def isAllowed (c : Char) : Bool :=
  let n := c.toNat
  c == '\t' || c == '\n' || c == '\r' || (0x20 ≤ n && n ≤ 0x7E) || n == 0x85
    || (0xA0 ≤ n && n != 0xFFFE && n != 0xFFFF)

def isWord (c : Char) : Bool :=
  c.isAlphanum || c == '_' || c == '-'

/-- Writes every kind of line end as a line feed. -/
def unifyBreaks : List Char → List Char
  | [] => []
  | '\r' :: '\n' :: rest => '\n' :: unifyBreaks rest
  | c :: rest => (if c == '\r' || c == '\u0085' then '\n' else c) :: unifyBreaks rest

/-! ## Problems -/

inductive Problem where
  | controlCharacter | strangeCharacter | missingColon | entryNotAllowed | keyNotAllowed
  | valueNotAllowed | tabIndentation | documentInside | endInside | unknownEscape | badHexadecimal
  | badCodePoint | zeroIndentation | textBehindHeader | badAnchor | badTag | badDirective
  | incompatibleVersion | unknownHandle | noNode | noDash | noKey | noBracket | noBrace | noDocument
  | unknownAnchor (name : String)
  deriving DecidableEq, Repr

def Problem.message : Problem → String
  | .controlCharacter => "control characters are not allowed"
  | .strangeCharacter => "found character that cannot start any token"
  | .missingColon => "could not find expected ':'"
  | .entryNotAllowed => "block sequence entries are not allowed in this context"
  | .keyNotAllowed => "mapping keys are not allowed in this context"
  | .valueNotAllowed => "mapping values are not allowed in this context"
  | .tabIndentation => "found a tab character that violates indentation"
  | .documentInside => "found unexpected document indicator"
  | .endInside => "found unexpected end of stream"
  | .unknownEscape => "found unknown escape character"
  | .badHexadecimal => "did not find expected hexdecimal number"
  | .badCodePoint => "found invalid Unicode character escape code"
  | .zeroIndentation => "found an indentation indicator equal to 0"
  | .textBehindHeader => "did not find expected comment or line break"
  | .badAnchor => "did not find expected alphabetic or numeric character"
  | .badTag => "did not find expected whitespace or line break"
  | .badDirective => "found unknown directive name"
  | .incompatibleVersion => "found incompatible YAML document"
  | .unknownHandle => "found undefined tag handle"
  | .noNode => "did not find expected node content"
  | .noDash => "did not find expected '-' indicator"
  | .noKey => "did not find expected key"
  | .noBracket => "did not find expected ',' or ']'"
  | .noBrace => "did not find expected ',' or '\x7d'"
  | .noDocument => "did not find expected <document start>"
  | .unknownAnchor name => "unknown anchor '" ++ name ++ "' referenced"

/-- A problem and the line where it was found, counted from zero. -/
structure Error where
  line : Nat
  problem : Problem
  deriving DecidableEq, Repr

def Error.message (e : Error) : String :=
  "yaml: line " ++ toString (e.line + 1) ++ ": " ++ e.problem.message

/-! ## Tokens -/

inductive Lexeme where
  | directive | documentStart | documentEnd | streamEnd
  | sequenceStart | mappingStart | blockEnd
  | openBracket | closeBracket | openBrace | closeBrace | comma
  | entry | key | value
  | alias (name : String) | anchor (name : String) | tag (name : String)
  | scalar (plain : Bool) (text : String)
  deriving DecidableEq, Repr

/-- A token with the line where it starts. -/
structure Token where
  lexeme : Lexeme
  line : Nat
  deriving DecidableEq, Repr

/-! ## Trees -/

inductive Node where
  /-- A text, with the tag that is written before it, and whether it is written without quotes. -/
  | scalar (line : Nat) (tag : Option String) (plain : Bool) (text : String)
  | sequence (line : Nat) (items : List Node)
  | mapping (line : Nat) (entries : List (Node × Node))

def Node.line : Node → Nat
  | .scalar line .. | .sequence line _ | .mapping line _ => line

end SsaCompiler.Yaml
