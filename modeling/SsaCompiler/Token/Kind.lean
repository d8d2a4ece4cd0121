/-!
# Token kinds

The kinds of lexical tokens in their fixed order. The order is part of the interface: kinds are
reported by name, and a number that names no kind is reported as such.
-/

namespace SsaCompiler.Token

inductive Kind where
  | nothing
  -- Literals.
  | string | character
  | byte | ubyte | short | ushort | integer | uinteger | long | ulong
  | float | double | hexadecimal | binary
  | boolean | null
  -- Separators.
  | semicolon | colon | comma
  | braceOpen | braceClose | parenOpen | parenClose | bracketOpen | bracketClose
  -- Words.
  | identifier | operator | keyword | typeWord | modifier | directive | annotated
  -- The stream itself.
  | newline | finish | unexpected
  deriving DecidableEq, Repr, Inhabited

namespace Kind

def all : List Kind := [
  .nothing, .string, .character, .byte, .ubyte, .short, .ushort, .integer, .uinteger, .long, .ulong,
  .float, .double, .hexadecimal, .binary, .boolean, .null, .semicolon, .colon, .comma, .braceOpen,
  .braceClose, .parenOpen, .parenClose, .bracketOpen, .bracketClose, .identifier, .operator,
  .keyword, .typeWord, .modifier, .directive, .annotated, .newline, .finish, .unexpected]

def name : Kind → String
  | .nothing => "NONE"
  | .string => "STRING"
  | .character => "CHARACTER"
  | .byte => "BYTE"
  | .ubyte => "UBYTE"
  | .short => "SHORT"
  | .ushort => "USHORT"
  | .integer => "INTEGER"
  | .uinteger => "UINTEGER"
  | .long => "LONG"
  | .ulong => "ULONG"
  | .float => "FLOAT"
  | .double => "DOUBLE"
  | .hexadecimal => "HEXADECIMAL"
  | .binary => "BINARY"
  | .boolean => "BOOLEAN"
  | .null => "NULL"
  | .semicolon => "SEMICOLON"
  | .colon => "COLON"
  | .comma => "COMMA"
  | .braceOpen => "BEGIN"
  | .braceClose => "END"
  | .parenOpen => "OPEN"
  | .parenClose => "CLOSE"
  | .bracketOpen => "START"
  | .bracketClose => "STOP"
  | .identifier => "IDENTIFIER"
  | .operator => "OPERATOR"
  | .keyword => "EXPRESSION"
  | .typeWord => "TYPE"
  | .modifier => "MODIFIER"
  | .directive => "INFO"
  | .annotated => "ANNOTATION"
  | .newline => "NEW_LINE"
  | .finish => "FINISH"
  | .unexpected => "UNEXPECTED"

def ofName? (s : String) : Option Kind :=
  all.find? fun k => k.name == s

def ofCode? (n : Nat) : Option Kind :=
  all[n]?

/-- The name of kind number `n`, or the number itself. -/
def nameOfCode (n : Nat) : String :=
  match ofCode? n with
  | some k => k.name
  | none => "Kind(" ++ toString n ++ ")"

def isNumber : Kind → Bool
  | .byte | .ubyte | .short | .ushort | .integer | .uinteger | .long | .ulong
  | .float | .double | .hexadecimal | .binary => true
  | _ => false

/-- Whether tokens of the kind are literals: numbers, text, truth values and null. -/
def isLiteral (k : Kind) : Bool :=
  k.isNumber || k == .string || k == .character || k == .boolean || k == .null

def isUnsigned : Kind → Bool
  | .ubyte | .ushort | .uinteger | .ulong => true
  | _ => false

end Kind

end SsaCompiler.Token
