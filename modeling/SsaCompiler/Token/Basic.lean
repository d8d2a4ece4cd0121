import SsaCompiler.Pos
import SsaCompiler.Token.Kind

/-!
# Tokens

A token is a kind, a text and the span of the source it was read from. Tokens may also be made
without a source, for instance by a tool that feeds the parser directly; their span is empty and
lies on line zero.
-/

namespace SsaCompiler

/-- Where a token was found. Offsets count characters from the start of the source. -/
structure Span where
  start : Nat := 0
  stop : Nat := 0
  lineStart : Nat := 0
  /-- The line, counted from one; zero if the token has no place in a source. -/
  line : Nat := 0
  deriving DecidableEq, Repr

namespace Span

def isValid (s : Span) : Bool :=
  s.line > 0

/-- The column of the first character, counted from one. -/
def col (s : Span) : Int :=
  (s.start : Int) - (s.lineStart : Int) + 1

/-- The position of the first character in `file`. -/
def pos (s : Span) (file : String) : Pos :=
  { file := file, line := s.line, col := s.col }

end Span

structure Token where
  kind : Token.Kind
  /-- Its text; empty for tokens that need none. -/
  text : String := ""
  span : Span := {}
  deriving DecidableEq, Repr, Inhabited

namespace Token

/-- A token without a place in a source. -/
def of (kind : Kind) (text : String) : Token :=
  { kind := kind, text := text }

def is (t : Token) (kind : Kind) (text : String) : Bool :=
  t.kind == kind && t.text == text

/-- Whether the token is the operator character `text`. -/
def isOp (t : Token) (text : String) : Bool :=
  t.is .operator text

/-- The kind with the text in parentheses, or the kind alone. -/
def render (t : Token) : String :=
  if t.text == "" then t.kind.name else t.kind.name ++ "(" ++ t.text ++ ")"

/-- Whether `a` and `b` are the operators `x` and `y` with nothing between them. Tokens without a
place count as touching. -/
def touching (a b : Token) (x y : String) : Bool :=
  a.isOp x && b.isOp y
    && (!a.span.isValid || !b.span.isValid || a.span.stop == b.span.start)

end Token

end SsaCompiler
