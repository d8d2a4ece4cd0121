import SsaCompiler.Package.Env
import SsaCompiler.Parser.Declarations
import SsaCompiler.Token.Layout
import SsaCompiler.Token.Scanner
import SsaCompiler.Tree.Outline

/-!
# Units

A unit is one source file: its declarations, and the events of its compilation. A unit has a number
by which its nodes are told apart from those of other units.
-/

namespace SsaCompiler

inductive ReadError where
  | lexical (e : Token.LexError)
  | grammar (e : SyntaxError)

def ReadError.message : ReadError → String
  | .lexical e => e.message
  | .grammar e => e.render

/-- One source file. -/
structure SourceUnit where
  number : Nat
  file : String
  decls : List Decl

namespace SourceUnit

def read (number : Nat) (file : String) (source : List Char) : Except ReadError SourceUnit :=
  match Token.tokenize file source with
  | .error e => .error (.lexical e)
  | .ok tokens =>
    let p := parseTokens file (Token.layout tokens)
    match p.error with
    | some e => .error (.grammar e)
    | none => .ok ⟨number, file, p.decls⟩

/-- The name of the module of a unit: that of its first package declaration, or that of the file. -/
def moduleName (u : SourceUnit) : String :=
  let declared := u.decls.findSome? fun
    | .package _ name => some name
    | _ => none
  declared.getD (if u.file == "" then Package.mainName else u.file)

end SourceUnit

/-- A step of compilation that goes over all declarations of a unit. -/
inductive Phase where
  | preProcess
  | postProcessType
  | postProcessMember
  | postProcessUse
  | generate
  deriving DecidableEq, Repr

namespace Phase

def all : List Phase :=
  [.preProcess, .postProcessType, .postProcessMember, .postProcessUse, .generate]

def declaring : List Phase :=
  [.preProcess, .postProcessType, .postProcessMember]

def name : Phase → String
  | .preProcess => "preProcess"
  | .postProcessType => "postProcessType"
  | .postProcessMember => "postProcessMember"
  | .postProcessUse => "postProcessUse"
  | .generate => "generate"

/-- The name of the phase with a given number, or the number itself. -/
def nameOfCode (n : Nat) : String :=
  (all[n]?).elim ("Phase(" ++ toString n ++ ")") name

end Phase

/-- A phase enters a node or leaves it. -/
structure Event where
  enters : Bool
  phase : Phase
  node : Node

def Event.render (e : Event) : String :=
  (if e.enters then "enter " else "leave ") ++ e.phase.name ++ " " ++ e.node.describe

end SsaCompiler
