import SsaCompiler.Typing.Type

/-!
# The state of typing

Typing walks over the statements of a method with the variables in scope, and writes down facts
about the nodes that it has seen. The facts remain when it fails.
-/

namespace SsaCompiler

open SsaCompiler.Core (ExprTy Var)

/-- A fact about a node, which is given by its number. -/
inductive Fact where
  | typed (node : Nat) (t : ExprTy)
  | declared (node : Nat) (v : Var)
  | used (node : Nat) (v : Var)
  | called (node : Nat) (m : MethodDef)

structure TypingState where
  /-- The variables in scope: one list for each block, the innermost first. -/
  scopes : List (List Var) := []
  nextVar : Nat := 0
  /-- What has been found out, the latest first. -/
  facts : List Fact := []

/-- Steps of typing in the view of a unit. -/
abbrev Typing (α : Type) : Type := ReaderT Env (ExceptT Failure (StateM TypingState)) α

namespace Typing

variable {α : Type}

def fail (site : Site) (cause : Cause) : Typing α :=
  throw (.at site cause)

def lift (x : Except Failure α) : Typing α :=
  match x with
  | .ok a => return a
  | .error e => throw e

def note (f : Fact) : Typing Unit :=
  modify fun s => { s with facts := f :: s.facts }

/-! ## Scopes -/

/-- Goes through a block with a scope of its own. -/
def inBlock (x : Typing α) : Typing α := do
  modify fun s => { s with scopes := [] :: s.scopes }
  let a ← x
  modify fun s => { s with scopes := s.scopes.tail }
  return a

/-- Starts over with one empty scope. -/
def freshScope : Typing Unit :=
  modify fun s => { s with scopes := [[]] }

/-- The innermost variable of a name. -/
def find? (name : String) : List (List Var) → Option Var
  | [] => none
  | scope :: outer =>
    match scope.find? fun v => v.name == name with
    | some v => some v
    | none => find? name outer

def visible (scopes : List (List Var)) : List String :=
  (scopes.flatten.map Var.name).eraseDups

def lookup (site : Site) (name : String) : Typing Var := do
  let s ← get
  match find? name s.scopes with
  | some v => return v
  | none => fail site (.undefinedName name (visible s.scopes))

/-- What a declaration says about a new variable. -/
structure Declaration where
  name : String
  type : ExprTy
  /-- The parameter that it is or is taken from; -1 if there is none. -/
  index : Int := -1
  mutable : Bool := false
  reference : Bool := false
  alloc : Core.Allocation
  /-- The variable that holds the length of the array. -/
  dim : Option Nat := none
  /-- The way from the tuple to the member. -/
  path : List Nat := []

/-- Declares a variable in the innermost scope. -/
def declare (site : Site) (node : Mark) (d : Declaration) : Typing Var := do
  let s ← get
  let scope := s.scopes.headD []
  if scope.any fun v => v.name == d.name then
    fail site (.redeclared d.name)
  let v : Var :=
    ⟨s.nextVar, d.name, d.type, node, d.index, d.mutable, d.reference, d.alloc, d.dim, d.path⟩
  set { s with scopes := (v :: scope) :: s.scopes.tail, nextVar := s.nextVar + 1 }
  note (.declared node.id v)
  return v

end Typing

end SsaCompiler
