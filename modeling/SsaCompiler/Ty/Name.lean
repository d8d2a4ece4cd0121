import SsaCompiler.Token.Keyword

/-!
# Names

Types, methods and variables are named by words joined with dots. A name that consists of one type
word is *primitive*: it names a built-in type. Bindings are named by a single word or, when a tuple
is taken apart, by a tree of words.
-/

namespace SsaCompiler

/-- A name of one or more words joined with dots. -/
structure QualName where
  segments : List String
  typeWord : Bool := false
  deriving DecidableEq, Repr

namespace QualName

variable (q : QualName)

/-- The name of a built-in type; other words give a name that is not primitive. -/
def ofTypeWord (w : String) : QualName :=
  ⟨[w], Token.isTypeWord w⟩

def isPrimitive : Bool :=
  q.typeWord && q.segments.length == 1

/-- The first word: what a path of fields starts from. -/
def direct : String :=
  q.segments.headD ""

/-- The last word: what a path of fields leads to. -/
def fieldName : String :=
  q.segments.getLastD ""

/-- The type word of a primitive name; empty for other names. -/
def primitive : String :=
  if q.isPrimitive then q.direct else ""

/-- Whether the name asks for the type to be inferred. -/
def isLet : Bool :=
  q.isPrimitive && q.direct == "let"

def isPath : Bool :=
  q.segments.length > 1

def render : String :=
  ".".intercalate q.segments

end QualName

/-- The name of a binding: a word, or a tree of words for the members of a tuple. -/
inductive BindingName where
  | word (w : String)
  | group (members : List BindingName)
  deriving Repr, Inhabited

namespace BindingName

mutual

def render : BindingName → String
  | .word w => w
  | .group members => "(" ++ ", ".intercalate (renderAll members) ++ ")"

def renderAll : List BindingName → List String
  | [] => []
  | n :: ns => n.render :: renderAll ns

end

mutual

/-- All words of a name, in order. -/
def words : BindingName → List String
  | .word w => [w]
  | .group members => wordsOfAll members

def wordsOfAll : List BindingName → List String
  | [] => []
  | n :: ns => n.words ++ wordsOfAll ns

end

end BindingName

end SsaCompiler
