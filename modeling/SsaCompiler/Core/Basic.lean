import SsaCompiler.Package.Env

/-!
# Resolved programs

What typing makes of a method: a tree in which every name has been replaced by what it stands for.
Variables carry their types and where they live, calls their methods, and every expression has a
type that can be read off. Parentheses are gone.
-/

namespace SsaCompiler.Core

/-- The type of an expression. The null literal has a type of its own, which fits every address. -/
inductive ExprTy where
  | null
  | val (t : Ty)

namespace ExprTy

/-- The type of the language that stands for an expression type: null is written as a reference to
void. -/
def type : ExprTy → Ty
  | .null => .scalar ((Scalar.ofPrimitive .void).withRef (.ref 1))
  | .val t => t

def isNull : ExprTy → Bool
  | .null => true
  | .val _ => false

def render (t : ExprTy) : String :=
  t.type.render

def ofPrimitive (p : Primitive) : ExprTy :=
  .val (.ofPrimitive p)

def ofScalar (s : Scalar) : ExprTy :=
  .val (.scalar s)

def primitive? (t : ExprTy) : Option Primitive :=
  t.type.primitive?

def isVoid (t : ExprTy) : Bool :=
  t.type.isVoid

def depth (t : ExprTy) : Nat :=
  t.type.depth

end ExprTy

/-- Where the value of a variable lives. -/
inductive Allocation where
  | none
  | heap
  | stack
  | call
  | tuple
  | slot
  | alias
  | param
  deriving DecidableEq, Repr

namespace Allocation

def all : List Allocation := [.none, .heap, .stack, .call, .tuple, .slot, .alias, .param]

def name : Allocation → String
  | .none => "none"
  | .heap => "heap"
  | .stack => "stack"
  | .call => "call"
  | .tuple => "tuple"
  | .slot => "slot"
  | .alias => "alias"
  | .param => "param"

def nameOfCode (n : Nat) : String :=
  (all[n]?).elim "unknown" name

end Allocation

/-- A variable: a local, a name bound to a member of a tuple, or a parameter. -/
structure Var where
  /-- A number that no other variable of the unit has. -/
  id : Nat
  name : String
  type : ExprTy
  decl : Mark
  /-- The parameter that it is or is taken from; -1 if there is none. -/
  index : Int
  mutable : Bool
  /-- Whether it holds a reference that is followed when it is written to. -/
  reference : Bool
  alloc : Allocation
  /-- The variable that holds the length of the array. -/
  dim : Option Nat
  /-- The way from the tuple to the member; empty if there is no tuple. -/
  path : List Nat

/-- A step of a path of fields. -/
structure Step where
  index : Nat
  /-- The type of the field, as the unit writes it. -/
  type : Scalar

structure Callee where
  owner : Owner
  key : String
  method : MethodDef
  /-- The parameter types, as the unit writes them. -/
  params : List Ty
  result : Ty

inductive Expr where
  | text (s : String)
  | null
  | int (p : Primitive) (n : Int)
  /-- A floating-point constant of a primitive type, by its bits. -/
  | float (p : Primitive) (bits : UInt64)
  | var (v : Var)
  | field (v : Var) (path : List Step)
  | call (f : Callee) (args : List Expr)
  | println (args : List Expr)
  | newZero (type : Scalar)
  | newCell (type : Scalar) (init : Expr)
  | newObject (type : Scalar) (cls : ClassAt) (args : List Expr)
  | malloc (type : Scalar)
  | sizeof (type : ExprTy)
  | tuple (members : List Expr)
  | cast (source target : Primitive) (x : Expr)
  | neg (p : Primitive) (x : Expr)
  | not (x : Expr)
  /-- A variable counted up or down by one. The value is the one before or the one after. -/
  | step (v : Var) (p : Primitive) (up after : Bool)
  /-- A conjunction or disjunction, which skips the second operand if it can. -/
  | logical (op : BinaryOp) (x y : Expr)
  /-- A comparison of truth values or addresses. -/
  | same (op : BinaryOp) (x y : Expr)
  | compare (op : BinaryOp) (p q : Primitive) (x y : Expr)
  | arith (op : BinaryOp) (p q : Primitive) (x y : Expr)
  | refTo (v : Var) (type : Scalar)
  | deref (v : Var) (type : Scalar)
  /-- An element of an array. `checked` says that the index is a constant known to lie within. -/
  | index (x i : Expr) (checked : Bool) (elem : Scalar)
  | arrayLiteral (type : Scalar) (elems : List Expr)
  | arrayAlloc (type : Scalar) (size : Expr)
  | selection (type : ExprTy) (cond x y : Expr)

namespace Expr

mutual

def type : Expr → ExprTy
  | .text _ => .ofPrimitive .string
  | .null => .null
  | .int p _ => .ofPrimitive p
  | .float p _ => .ofPrimitive p
  | .var v => v.type
  | .field _ path => .ofScalar ((path.getLast?.map Step.type).getD default)
  | .call f _ => .val f.result
  | .println _ => .ofPrimitive .void
  | .newZero type => .ofScalar (type.withRef .none)
  | .newCell type _ => .ofScalar (type.withRef .none)
  | .newObject type _ _ => .ofScalar (type.withRef .none)
  | .malloc type => .ofScalar type
  | .sizeof _ => .ofPrimitive .long
  | .tuple members => .val (.tuple .none (types members))
  | .cast _ target _ => .ofPrimitive target
  | .neg p _ => .ofPrimitive p
  | .not _ => .ofPrimitive .bool
  | .step _ p _ _ => .ofPrimitive p
  | .logical _ _ _ => .ofPrimitive .bool
  | .same _ _ _ => .ofPrimitive .bool
  | .compare _ _ _ _ _ => .ofPrimitive .bool
  | .arith _ p q _ _ => .ofPrimitive (p.promote q)
  | .refTo _ type => .ofScalar type
  | .deref _ type => .ofScalar type
  | .index _ _ _ elem => .ofScalar elem
  | .arrayLiteral type _ => .ofScalar type
  | .arrayAlloc type _ => .ofScalar type
  | .selection type _ _ _ => type

def types : List Expr → List Ty
  | [] => []
  | e :: es => (type e).type :: types es

end

/-- The variable that an element or field belongs to, if the way to it starts from one. -/
def root? : Expr → Option Var
  | .var v => some v
  | .field v _ => some v
  | .index x _ _ _ => root? x
  | _ => none

end Expr

mutual

inductive Stmt where
  | expr (x : Expr)
  | declare (v : Var)
  | bind (v : Var) (init : Expr)
  | destructure (vars : List Var) (value : Expr)
  | assign (v : Var) (value : Expr)
  | fieldAssign (v : Var) (path : List Step) (value : Expr)
  | indexAssign (x i : Expr) (checked : Bool) (elem : Scalar) (value : Expr)
  | branch (cond : Expr) (body : List Stmt) (rest : Otherwise)
  | loop (cond : Expr) (body : List Stmt)
  | retVoid
  | ret (value : Expr) (result : Ty)
  | free (v : Var)

/-- What follows the first branch of a conditional statement. -/
inductive Otherwise where
  | none
  | elseIf (cond : Expr) (body : List Stmt) (rest : Otherwise)
  | final (body : List Stmt)

end

structure Method where
  origin : MethodDef
  /-- The variables for its parameters, in the order in which they are bound. -/
  vars : List Var
  body : List Stmt

structure DefaultValue where
  cls : String
  index : Nat
  value : Expr

end SsaCompiler.Core
