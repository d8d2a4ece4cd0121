import SsaCompiler.Pos
import SsaCompiler.Tree.Operator
import SsaCompiler.Ty.Basic

/-!
# Syntax trees

The abstract syntax of a unit: expressions, statements, members and declarations. Every node carries
a mark with its position and with a number that is unique in the unit, by which facts about the node
are recorded beside the tree.
-/

namespace SsaCompiler

/-- The identity of a node. -/
structure Mark where
  id : Nat
  pos : Pos
  deriving DecidableEq, Repr

inductive Expr where
  /-- A constant, given by the token that was read. -/
  | literal (m : Mark) (kind : Token.Kind) (text : String)
  /-- A variable or a path of fields: `a.b.c`. -/
  | accessor (m : Mark) (name : QualName)
  /-- A call: `f(x, y)`. -/
  | call (m : Mark) (name : QualName) (typeArgs : Option (List TypeArg)) (args : List Expr)
  /-- A new object: `new Point(1, 2)`. -/
  | new (m : Mark) (type : Scalar) (args : List Expr)
  /-- Uninitialised heap memory: `malloc int`. -/
  | malloc (m : Mark) (type : Scalar)
  /-- The size of a type: `sizeof(int)`. -/
  | sizeofType (m : Mark) (type : Scalar)
  /-- The size of the type of a value: `sizeof x`. -/
  | sizeofValue (m : Mark) (x : Expr)
  /-- A tuple: `(a, b)`. -/
  | tuple (m : Mark) (members : List Expr)
  | group (m : Mark) (x : Expr)
  /-- A conversion: `(long) x`. -/
  | cast (m : Mark) (type : Scalar) (x : Expr)
  | unary (m : Mark) (op : UnaryOp) (x : Expr)
  | binary (m : Mark) (op : BinaryOp) (x y : Expr)
  /-- The address of a variable: `ref x`. -/
  | refAccess (m : Mark) (name : String)
  /-- The value behind a reference: `deref p`. -/
  | derefAccess (m : Mark) (name : String)
  /-- An array element: `a[i]`. -/
  | index (m : Mark) (x i : Expr)
  /-- An array of given values: `[1, 2, 3]`. -/
  | arrayLiteral (m : Mark) (elems : List Expr)
  /-- A new array: `new int[n]`. -/
  | arrayAlloc (m : Mark) (elem : Scalar) (size : Expr)
  /-- A conditional expression: `c ? a : b`. -/
  | selection (m : Mark) (cond thenValue elseValue : Expr)

def Expr.mark : Expr → Mark
  | .literal m .. | .accessor m .. | .call m .. | .new m .. | .malloc m .. | .sizeofType m ..
  | .sizeofValue m .. | .tuple m .. | .group m .. | .cast m .. | .unary m .. | .binary m ..
  | .refAccess m .. | .derefAccess m .. | .index m .. | .arrayLiteral m .. | .arrayAlloc m ..
  | .selection m .. => m

def Expr.pos (e : Expr) : Pos :=
  e.mark.pos

mutual

inductive Stmt where
  | expr (m : Mark) (x : Expr)
  /-- A variable without an initial value: `int x`. -/
  | declare (m : Mark) (type : Scalar) (name : String)
  /-- An immutable variable of a written type: `int x = e`. -/
  | define (m : Mark) (type : Scalar) (name : String) (value : Expr)
  /-- An immutable variable of an inferred type: `let x = e`. -/
  | immutable (m : Mark) (name : String) (value : Expr)
  /-- A mutable variable: `mut x = e`, `mut int x = e` or `mut int x`. -/
  | mutable (m : Mark) (type : Option Scalar) (name : String) (value : Option Expr)
  /-- A mutable variable that holds a reference: `ref x = e`. -/
  | reference (m : Mark) (name : String) (value : Expr)
  /-- Immutable variables for the members of a tuple: `let (a, b) = e`. -/
  | destructure (m : Mark) (names : List BindingName) (value : Expr)
  /-- A store into a variable: `x = e`. -/
  | assign (m : Mark) (name : String) (value : Expr)
  /-- A store into a field: `p.x = e`. -/
  | fieldAssign (m : Mark) (target : QualName) (value : Expr)
  /-- A store into an array element: `a[i] = e`. The element `a[i]` has a mark of its own. -/
  | indexAssign (m : Mark) (target : Mark) (x i value : Expr)
  | branch (m : Mark) (cond : Expr) (body : List Stmt) (rest : Otherwise)
  | loop (m : Mark) (cond : Expr) (body : List Stmt)
  | ret (m : Mark) (value : Option Expr)
  | free (m : Mark) (name : String)

/-- What follows the first branch of a conditional statement. -/
inductive Otherwise where
  | none
  | elseIf (m : Mark) (cond : Expr) (body : List Stmt) (rest : Otherwise)
  | final (m : Mark) (body : List Stmt)

end

def Stmt.mark : Stmt → Mark
  | .expr m .. | .declare m .. | .define m .. | .immutable m .. | .mutable m .. | .reference m ..
  | .destructure m .. | .assign m .. | .fieldAssign m .. | .indexAssign m .. | .branch m ..
  | .loop m .. | .ret m .. | .free m .. => m

structure Param where
  type : Ty
  /-- Whether it takes any number of arguments. -/
  variadic : Bool
  name : BindingName
  mutable : Bool

structure Method where
  mark : Mark
  modifiers : List String
  /-- The result type, with names that the caller may bind. -/
  result : Ty
  name : String
  typeParams : Option (List TypeParam)
  params : List Param
  body : List Stmt

def Method.paramTypes (m : Method) : List Ty :=
  m.params.map Param.type

/-- One name of a field declaration. -/
structure FieldEntry where
  name : String
  value : Option Expr

/-- A declaration of one or more fields of one type: `int a, b = 1`. -/
structure Field where
  mark : Mark
  modifiers : List String
  type : Scalar
  entries : List FieldEntry

inductive Member where
  | modifierBlock (m : Mark) (modifiers : List String)
  | modifierList (m : Mark) (modifiers : List String)
  | field (f : Field)
  | method (m : Method)

structure ClassDecl where
  mark : Mark
  modifiers : List String
  name : String
  typeParams : Option (List TypeParam)
  members : List Member

inductive Decl where
  | package (m : Mark) (name : String)
  /-- Another package whose names are used with a path. -/
  | importing (m : Mark) (name : String)
  /-- Another package whose names are used as they are. -/
  | using (m : Mark) (name : String)
  | modifierBlock (m : Mark) (modifiers : List String)
  | modifierList (m : Mark) (modifiers : List String)
  | classDecl (c : ClassDecl)
  | method (m : Method)

end SsaCompiler
