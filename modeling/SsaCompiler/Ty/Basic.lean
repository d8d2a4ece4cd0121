import SsaCompiler.Number.Integer
import SsaCompiler.Ty.Name
import SsaCompiler.Ty.Primitive

/-!
# Types

The types of the source language: scalars (a name with type arguments and array dimensions), tuples
and lambdas. In the position of a method result each of them may carry binding names, as in
`(bool ok, string msg)`; those are the named variants, and `unnamed` removes the names.

A qualifier (`ref`, `deref`, `mut`) belongs to a scalar or a tuple. It counts how many references
lie between a value of the type and the object; `mut` counts none.
-/

namespace SsaCompiler

variable (s : Scalar)

/-- The qualifier of a type. -/
inductive Referencing where
  | none
  | ref (depth : Nat)
  | deref (depth : Nat)
  | mut
  deriving DecidableEq, Repr

namespace Referencing

/-- How many references lie in between. -/
def depth : Referencing → Nat
  | .ref n => n
  | .deref n => n
  | .none | .mut => 0

/-- The qualifier as it is written, with a blank behind it. -/
def render : Referencing → String
  | .none => ""
  | .ref n => "ref" ++ String.ofList (List.replicate (n - 1) '*') ++ " "
  | .deref n => "deref" ++ String.ofList (List.replicate (n - 1) '*') ++ " "
  | .mut => "mut "

end Referencing

inductive Dimension where
  | unsized
  | constant (digits : String)
  | symbolic (name : String)
  deriving DecidableEq, Repr

namespace Dimension

def ofInt (n : Int) : Dimension :=
  .constant (toString n)

/-- Whether the size is written in digits. -/
def isConstant : Dimension → Bool
  | .constant _ => true
  | _ => false

/-- The constant size, if there is one that fits a 64-bit word. -/
def size? : Dimension → Option Int
  | .constant digits => (Number.ofDecimal? digits.toList).filter (Number.fitsSigned 64)
  | _ => Option.none

def render : Dimension → String
  | .unsized => "[]"
  | .constant digits => "[" ++ digits ++ "]"
  | .symbolic name => "[" ++ name ++ "]"

end Dimension

mutual

/-- A type of the source language. -/
inductive Ty where
  | scalar (s : Scalar)
  | tuple (ref : Referencing) (members : List Ty)
  | lambda (result : Ty) (params : List LambdaParam)
  | namedScalar (s : Scalar) (name : Option String)
  | namedGroup (ref : Referencing) (members : List Ty)
  | namedLambda (result : Ty) (params : List LambdaParam) (name : Option String)

/-- A scalar: a qualified name with type arguments and array dimensions. Type arguments may be
absent altogether, which differs from an empty list in brackets. -/
inductive Scalar where
  | mk (ref : Referencing) (name : QualName) (args : Option (List TypeArg)) (dims : List Dimension)

/-- A type argument; without a type it stands for the default of the parameter. -/
inductive TypeArg where
  | mk (type : Option Ty) (args : Option (List TypeArg))

inductive LambdaParam where
  | mk (ref : Referencing) (type : Ty) (variadic : Bool) (name : Option BindingName)

end

instance : Inhabited Scalar := ⟨.mk .none ⟨[], false⟩ none []⟩
instance : Inhabited Ty := ⟨.scalar default⟩

/-! ## Parts of scalars -/

namespace Scalar

def ref : Scalar → Referencing
  | .mk r _ _ _ => r

def name : Scalar → QualName
  | .mk _ n _ _ => n

def args : Scalar → Option (List TypeArg)
  | .mk _ _ a _ => a

def dims : Scalar → List Dimension
  | .mk _ _ _ d => d

def depth (s : Scalar) : Nat :=
  s.ref.depth

def isArray : Bool :=
  !s.dims.isEmpty

def withRef (r : Referencing) : Scalar :=
  .mk r s.name s.args s.dims

def withDims (dims : List Dimension) : Scalar :=
  .mk s.ref s.name s.args dims

def withName (name : QualName) : Scalar :=
  .mk s.ref name s.args s.dims

def withoutArgs : Scalar :=
  .mk s.ref s.name none s.dims

/-- The unqualified scalar named by a type word. -/
def basic (w : String) : Scalar :=
  .mk .none (.ofTypeWord w) none []

def ofPrimitive (p : Primitive) : Scalar :=
  basic p.name

def addReference : Scalar :=
  s.withRef (.ref (s.depth + 1))

/-- The scalar with one reference less; none if it is no reference. -/
def removeReference? : Option Scalar :=
  match s.ref with
  | .ref n => some (s.withRef (if n > 1 then .ref (n - 1) else .none))
  | _ => Option.none

/-- The type of an element: the outermost dimension is dropped. -/
def element? : Option Scalar :=
  match s.dims with
  | [] => Option.none
  | _ :: rest => some (s.withDims rest)

end Scalar

/-- The type parameter of a declaration, with an optional default. -/
inductive TypeParam where
  | mk (name : String) (params : Option (List TypeParam)) (default? : Option Scalar)

def TypeParam.name : TypeParam → String
  | .mk n _ _ => n

/-! ## Written form -/

namespace Ty

mutual

/-- A type as it is written. The qualifier of a tuple is not shown. -/
def render : Ty → String
  | .scalar s => renderScalar s
  | .tuple _ members => "(" ++ ", ".intercalate (renderAll members) ++ ")"
  | .lambda result params =>
    render result ++ " |" ++ ", ".intercalate (renderParams params) ++ "|"
  | .namedScalar s none => renderScalar s
  | .namedScalar s (some name) => renderScalar s ++ " " ++ name
  | .namedGroup _ members => "(" ++ ", ".intercalate (renderAll members) ++ ")"
  | .namedLambda result params none =>
    render result ++ " |" ++ ", ".intercalate (renderParams params) ++ "|"
  | .namedLambda result params (some name) =>
    render result ++ " |" ++ ", ".intercalate (renderParams params) ++ "| " ++ name

def renderAll : List Ty → List String
  | [] => []
  | t :: ts => render t :: renderAll ts

def renderScalar : Scalar → String
  | .mk ref name none dims => ref.render ++ name.render ++ String.join (dims.map Dimension.render)
  | .mk ref name (some args) dims =>
    ref.render ++ name.render ++ "<" ++ ", ".intercalate (renderArgs args) ++ ">"
      ++ String.join (dims.map Dimension.render)

def renderArg : TypeArg → String
  | .mk none none => "default"
  | .mk none (some args) => "default<" ++ ", ".intercalate (renderArgs args) ++ ">"
  | .mk (some t) none => render t
  | .mk (some t) (some args) => render t ++ "<" ++ ", ".intercalate (renderArgs args) ++ ">"

def renderArgs : List TypeArg → List String
  | [] => []
  | a :: as => renderArg a :: renderArgs as

def renderParam : LambdaParam → String
  | .mk ref t variadic none => ref.render ++ render t ++ (if variadic then "..." else "")
  | .mk ref t variadic (some name) =>
    ref.render ++ render t ++ (if variadic then "..." else "") ++ " " ++ name.render

def renderParams : List LambdaParam → List String
  | [] => []
  | p :: ps => renderParam p :: renderParams ps

end

end Ty

def Scalar.render : String :=
  Ty.renderScalar s

/-- A list of type arguments as it is written; empty if there is none. -/
def TypeArg.renderList : Option (List TypeArg) → String
  | none => ""
  | some args => "<" ++ ", ".intercalate (Ty.renderArgs args) ++ ">"

namespace TypeParam

mutual

def render : TypeParam → String
  | .mk name none none => name
  | .mk name none (some t) => name ++ " = " ++ t.render
  | .mk name (some params) none => name ++ "<" ++ ", ".intercalate (renderAll params) ++ ">"
  | .mk name (some params) (some t) =>
    name ++ "<" ++ ", ".intercalate (renderAll params) ++ "> = " ++ t.render

def renderAll : List TypeParam → List String
  | [] => []
  | p :: ps => render p :: renderAll ps

end

def renderList : Option (List TypeParam) → String
  | none => ""
  | some params => "<" ++ ", ".intercalate (renderAll params) ++ ">"

end TypeParam

/-! ## Removing binding names -/

namespace Ty

mutual

/-- The type without binding names. Inside of types that carry none, nothing changes. -/
def unnamed : Ty → Ty
  | .namedScalar s _ => .scalar s
  | .namedGroup ref members => .tuple ref (unnamedAll members)
  | .namedLambda result params _ => .lambda (unnamed result) params
  | t => t

def unnamedAll : List Ty → List Ty
  | [] => []
  | t :: ts => unnamed t :: unnamedAll ts

end

/-! ## Views -/

/-- The scalar that a type is, binding names aside. -/
def scalar? : Ty → Option Scalar
  | .scalar s => some s
  | .namedScalar s _ => some s
  | _ => Option.none

/-- The members of the tuple that a type is, binding names aside. -/
def members? : Ty → Option (List Ty)
  | .tuple _ members => some members
  | .namedGroup _ members => some (unnamedAll members)
  | _ => Option.none

def depth : Ty → Nat
  | .scalar s => s.depth
  | .namedScalar s _ => s.depth
  | .tuple ref _ => ref.depth
  | .namedGroup ref _ => ref.depth
  | .lambda _ _ => 0
  | .namedLambda _ _ _ => 0

end Ty

/-- The primitive type that a scalar is. Arrays and references are not primitive. -/
def Scalar.primitive? : Option Primitive :=
  if s.isArray || s.depth > 0 || !s.name.isPrimitive then none
  else Primitive.ofName? s.name.primitive

namespace Ty

def primitive? (t : Ty) : Option Primitive :=
  t.scalar?.bind Scalar.primitive?

def isVoid (t : Ty) : Bool :=
  t.primitive? == some .void

/-- Whether the type names a class: a scalar that is neither primitive nor an array. -/
def isClass (t : Ty) : Bool :=
  t.scalar?.any fun s => !s.name.isPrimitive && !s.isArray

def ofPrimitive (p : Primitive) : Ty :=
  .scalar (.ofPrimitive p)

end Ty

end SsaCompiler
