import SsaCompiler.Token.Basic

/-!
# Layout

Between scanning and parsing, comments and line ends leave the token stream, and a line end that
terminates a statement becomes a semicolon.

* A comment runs from its opening delimiter to the line end or to its closing delimiter. Comments
  are recognised by touching operator characters.
* A line end becomes a semicolon when the last token kept may end a statement and the next token
  that is no line end does not continue the line. The end of the source counts as a line end that
  nothing continues.
* An inserted semicolon stands just behind the token it follows, and its text is `auto`.

Only the last two tokens kept matter for the first condition: the second one is needed for the
postfix operators `++` and `--`.
-/

namespace SsaCompiler.Token

variable (ts : List Token)

namespace Layout

def autoText : String := "auto"

def mayEnd (t : Token) : Bool :=
  match t.kind with
  | .identifier | .string | .character | .byte | .ubyte | .short | .ushort | .integer | .uinteger
  | .long | .ulong | .float | .double | .hexadecimal | .binary | .boolean | .null
  | .parenClose | .bracketClose | .braceClose => true
  | .keyword => ["break", "continue", "return"].contains t.text
  | _ => false

/-- Whether a token at the start of a line continues the line before. -/
def continues (t : Token) : Bool :=
  match t.kind with
  | .operator =>
    ["=", "+", "-", "*", "/", "<", ">", "?", "!", "^", "&", "~", "$", ".", "%", "|"].contains t.text
  | .keyword => t.text == "where"
  | _ => false

/-- The last two tokens kept, the latest first. -/
structure Recent where
  previous : Option Token := none
  last : Option Token := none
  deriving Repr

def Recent.push (r : Recent) (t : Token) : Recent :=
  ⟨r.last, some t⟩

/-- Whether the tokens kept so far may end a statement: by their last token, or by a postfix `++` or
`--`. -/
def Recent.mayEnd (r : Recent) : Bool :=
  match r.last with
  | none => false
  | some t =>
    Layout.mayEnd t
      || (t.isOp "+" && r.previous.any fun p => p.touching t "+" "+")
      || (t.isOp "-" && r.previous.any fun p => p.touching t "-" "-")

/-- The semicolon inserted behind `t`. -/
def semicolonAfter (t : Token) : Token :=
  ⟨.semicolon, autoText, { t.span with start := t.span.stop }⟩

/-- The semicolon to insert behind the tokens kept so far, if they may end a statement. -/
def Recent.semicolon? (r : Recent) : Option Token :=
  if r.mayEnd then r.last.map semicolonAfter else none

/-- The first token that is no line end; the end of the stream counts as the end of the source. -/
def significant : Token :=
  (ts.find? fun t => t.kind != .newline).getD { kind := .finish }

/-- What follows a line comment: the stream from the line end on. -/
def skipLine : List Token :=
  ts.dropWhile fun t => t.kind != .newline && t.kind != .finish && t.kind != .unexpected

/-- What follows a block comment: the stream behind its closing delimiter, or from the end of the
source on. -/
def skipBlock : List Token → List Token
  | [] => []
  | [t] => if t.kind == .finish || t.kind == .unexpected then [t] else []
  | t :: u :: rest =>
    if t.kind == .finish || t.kind == .unexpected then t :: u :: rest
    else if t.touching u "*" "/" then rest
    else skipBlock (u :: rest)

theorem length_skipLine_le : (skipLine ts).length ≤ ts.length :=
  (List.dropWhile_sublist _).length_le

theorem length_skipBlock_le : (skipBlock ts).length ≤ ts.length := by
  fun_induction skipBlock ts <;> simp_all <;> omega

/-- Lays out a stream behind the tokens kept so far. -/
def run (r : Recent) : List Token → List Token
  | [] => []
  | t :: rest =>
    if rest.head?.any fun u => t.touching u "/" "/" then run r (skipLine (rest.drop 1))
    else if rest.head?.any fun u => t.touching u "/" "*" then run r (skipBlock (rest.drop 1))
    else if t.kind == .newline then
      if continues (significant rest) then run r rest
      else
        match r.semicolon? with
        | some s => s :: run (r.push s) rest
        | none => run r rest
    else if t.kind == .finish then
      match r.semicolon? with
      | some s => s :: t :: run ((r.push s).push t) rest
      | none => t :: run (r.push t) rest
    else t :: run (r.push t) rest
termination_by ts => ts.length
decreasing_by
  all_goals simp_wf
  · have h := length_skipLine_le (rest.drop 1)
    simp at h
    omega
  · have h := length_skipBlock_le (rest.drop 1)
    simp at h
    omega

end Layout

/-- Removes comments and line ends from a token stream and inserts semicolons. -/
def layout : List Token :=
  Layout.run {} ts

end SsaCompiler.Token
