import SsaCompiler.Typing.Error

/-!
# Rules of types

Which types can be written, which values are addresses, and which values can be stored where a type
is expected.
-/

namespace SsaCompiler

open SsaCompiler.Core (ExprTy)

namespace Ty

def isArray (t : Ty) : Bool :=
  t.scalar?.any fun s => s.isArray && s.depth == 0

def isTuple (t : Ty) : Bool :=
  t.members?.isSome && t.depth == 0

/-- The type with one reference less, if it is a reference. -/
def removeReference (t : Ty) : Ty :=
  ((t.scalar?.bind Scalar.removeReference?).map Ty.scalar).getD t

end Ty

def Scalar.arrayOf (elem : Scalar) (dim : Dimension) : Scalar :=
  (elem.withRef .none).withDims (dim :: elem.dims)

def Scalar.firstDim (s : Scalar) : Dimension :=
  s.dims.headD .unsized

def Scalar.element (s : Scalar) : Scalar :=
  s.element?.getD s

namespace Env

variable (env : Env)

def classOf? (t : Ty) : Option ClassAt :=
  t.scalar?.bind fun s =>
    if s.isArray || s.depth > 0 || s.name.isPrimitive then none else env.class? s.name

def isAddress (t : Ty) : Bool :=
  t.depth > 0 || t.isArray || t.isTuple || (env.classOf? t).isSome || t.primitive? == some .string

/-- Whether a variable of a type is read by loading it from its storage. The values of arrays,
tuples and objects are their addresses. -/
def isCell (t : Ty) : Bool :=
  !t.isArray && !t.isTuple && (env.classOf? t).isNone

/-- Whether one array can be taken for another: the first dimension may be forgotten. -/
def arrayFits (dst src : Ty) : Bool :=
  match dst.scalar?, src.scalar? with
  | some d, some s =>
    dst.isArray && src.isArray && !d.firstDim.isConstant
      && (Ty.scalar d.element).identical (.scalar s.element)
  | _, _ => false

/-- Whether a value of a type can be stored where another type is expected. Numbers may gain
precedence, and null fits every address. -/
def assignable (dst : Ty) (src : ExprTy) : Bool :=
  match src with
  | .null => env.isAddress dst
  | .val s =>
    if s.isVoid || dst.isVoid then false
    else if dst.identical s && dst.depth == s.depth then true
    else
      match dst.primitive?, s.primitive? with
      | some p, some q => p.isNumeric && q.isNumeric && q.precedence ≤ p.precedence
      | _, _ => arrayFits dst s

/-! ## Types that can be written -/

/-- Why a scalar cannot be written, if it cannot. -/
def scalarFault? (s : Scalar) : Option Cause :=
  if s.args.isSome then some (.genericType s)
  else if s.dims.tail.any fun d => !d.isConstant then some (.unsizedInner s)
  else if s.name.isLet then some .letType
  else if s.name.isPrimitive then
    match Primitive.ofName? s.name.primitive with
    | none => some (.undefinedPrimitive s.name)
    | some p => if s.isArray && p == .void then some .arrayOfVoid else none
  else if (env.class? s.name).isNone then some (.undefinedType s.name env.classNames)
  else none

mutual

/-- Why a type cannot be written, if it cannot. -/
def typeFault? (env : Env) : Ty → Option Cause
  | .scalar s => env.scalarFault? s
  | .namedScalar s _ => env.scalarFault? s
  | .tuple _ members => env.membersFault? members
  | .namedGroup _ members => env.membersFault? members
  | .lambda .. => some .lambdaType
  | .namedLambda .. => some .lambdaType

/-- Why the members of a tuple cannot be written, if they cannot. -/
def membersFault? (env : Env) : List Ty → Option Cause
  | [] => none
  | t :: ts =>
    match env.typeFault? t with
    | some c => some c
    | none => if t.isVoid then some .voidMember else env.membersFault? ts

end

def checkType (site : Site) (t : Ty) : Except Failure Unit :=
  match env.typeFault? t with
  | some c => throw (.at site c)
  | none => return ()

def checkScalar (site : Site) (s : Scalar) : Except Failure Unit :=
  env.checkType site (.scalar s)

/-- Refuses a value that cannot be stored where a type is expected. -/
def checkAssign (site : Site) (what : String) (dst : Ty) (src : ExprTy) :
    Except Failure Unit :=
  if env.assignable dst src then return ()
  else throw (.at site (.mismatch what (.val dst) src))

end Env

end SsaCompiler
