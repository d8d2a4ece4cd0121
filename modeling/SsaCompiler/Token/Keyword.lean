import SsaCompiler.Token.Kind

/-!
# Reserved words

A word of the source is classified by six lists of reserved words; all other words are identifiers.
The lists are disjoint, so the order in which they are consulted plays no role.
-/

namespace SsaCompiler.Token

namespace Keyword

/-- Words that start or continue statements and expressions. -/
def expressionWords : List String := [
  "new", "class", "enum", "union", "struct", "interface", "for", "while", "repeat", "do", "if",
  "else", "switch", "case", "loop", "continue", "break", "return", "await", "goto", "is", "in",
  "as", "where", "defer", "assert", "sizeof", "malloc", "free"]

def typeWords : List String := [
  "let", "mut", "ref", "deref", "byte", "ubyte", "short", "ushort", "int", "uint", "double",
  "udouble", "float", "ufloat", "long", "ulong", "void", "bool", "char", "string"]

def modifiers : List String := [
  "public", "protected", "private", "static", "final", "native", "extern", "transient",
  "synchronized", "async", "const", "unsafe", "weak", "strong", "default"]

def booleans : List String := ["true", "false"]

def nulls : List String := ["null", "nullptr"]

def directives : List String := ["package", "import", "using"]

end Keyword

def isTypeWord (w : String) : Bool :=
  Keyword.typeWords.contains w

def isModifier (w : String) : Bool :=
  Keyword.modifiers.contains w

def classify (w : String) : Kind :=
  if Keyword.expressionWords.contains w then .keyword
  else if isTypeWord w then .typeWord
  else if isModifier w then .modifier
  else if Keyword.booleans.contains w then .boolean
  else if Keyword.nulls.contains w then .null
  else if Keyword.directives.contains w then .directive
  else .identifier

end SsaCompiler.Token
