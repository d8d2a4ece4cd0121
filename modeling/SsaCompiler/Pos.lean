/-!
# Source positions

A position names a place in a source file by line and column, both counted from one and in
characters. Nodes that were not read from a source have the position of line zero, which shows only
the file.
-/

namespace SsaCompiler

structure Pos where
  /-- The file; empty if unknown. -/
  file : String
  /-- The line, counted from one; positions without a place have a line below one. -/
  line : Int
  /-- The column in characters, counted from one. -/
  col : Int
  deriving DecidableEq, Repr, Inhabited

namespace Pos

def isValid (p : Pos) : Bool :=
  p.line > 0

/-- `file:line:col`, without the file if it is unknown, and the file alone (or `-`) if the position
names no place. -/
def render (p : Pos) : String :=
  if p.isValid then
    let place := toString p.line ++ ":" ++ toString p.col
    if p.file == "" then place else p.file ++ ":" ++ place
  else if p.file == "" then "-"
  else p.file

end Pos

end SsaCompiler
