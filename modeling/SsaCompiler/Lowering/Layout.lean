import SsaCompiler.Typing.Stmt

/-!
# Machine types of source types

Numbers and truth values become machine numbers. The values of classes, tuples and arrays are the
addresses of their objects. A class becomes a structure of its fields, and an array of constant size
that is a field or an element lies there itself, not behind an address.

A class whose layout would contain itself is refused; the classes that are being laid out are kept
in a list, so that the recursion ends.
-/

namespace SsaCompiler

open SsaCompiler.Core (ExprTy)

variable (env : Env)

def Primitive.machineType : Primitive → Ssa.Ty
  | .float => .float
  | .double => .double
  | .string => .pointer (.int 8)
  | .void => .void
  | p => .int p.bits

/-- How the structure of a class is found. -/
abbrev StructOf := ClassAt → Except Failure Ssa.Ty

namespace Layout

def behind : (depth : Nat) → Ssa.Ty → Ssa.Ty
  | 0, t => t
  | n + 1, t => .pointer (behind n t)

def named (structOf : StructOf) (s : Scalar) : Except Failure Ssa.Ty :=
  match s.name.isPrimitive, Primitive.ofName? s.name.primitive with
  | true, some p => return p.machineType
  | _, _ =>
    match env.class? s.name with
    | some c => return .pointer (← structOf c)
    | none => throw (.internal (.unresolvedClass s.name))

/-- The address of an array whose first dimension and element type are given. -/
def arrayAddress (d : Dimension) (elem : Ssa.Ty) : Ssa.Ty :=
  match d.size? with
  | some n => .pointer (.array n elem)
  | none => .pointer elem

/-- The type of a scalar with the given dimensions within an object. -/
def stored (env : Env) (structOf : StructOf) (s : Scalar) : List Dimension → Except Failure Ssa.Ty
  | [] => return behind s.depth (← named env structOf s)
  | d :: ds =>
    if s.depth == 0 then
      match d.size? with
      | some n => return .array n (← stored env structOf s ds)
      | none => throw (.internal (.unsizedStorage (s.withDims (d :: ds))))
    else return behind s.depth (arrayAddress d (← stored env structOf s ds))

def storage (structOf : StructOf) (s : Scalar) : Except Failure Ssa.Ty :=
  stored env structOf s s.dims

def scalar (structOf : StructOf) (s : Scalar) : Except Failure Ssa.Ty := do
  match s.dims with
  | [] => return behind s.depth (← named env structOf s)
  | d :: ds => return behind s.depth (arrayAddress d (← stored env structOf s ds))

mutual

def value (env : Env) (structOf : StructOf) : Ty → Except Failure Ssa.Ty
  | .scalar s => scalar env structOf s
  | .namedScalar s _ => scalar env structOf s
  | .tuple ref members =>
    return behind ref.depth (.pointer (.struct (← values env structOf members)))
  | .namedGroup ref members =>
    return behind ref.depth (.pointer (.struct (← values env structOf members)))
  | .lambda r ps => throw (.internal (.noMachineType (.lambda r ps)))
  | .namedLambda r ps name => throw (.internal (.noMachineType (.namedLambda r ps name)))

def values (env : Env) (structOf : StructOf) : List Ty → Except Failure (List Ssa.Ty)
  | [] => return []
  | t :: ts => do
    let u ← value env structOf t
    return u :: (← values env structOf ts)

end

/-- The structure of a class. `active` holds the classes that are being laid out, and `fuel` bounds
their number. -/
def struct (env : Env) : (fuel : Nat) → (active : List (Owner × String)) → StructOf
  | 0, _, c => throw (.at c.cls.decl.site (.recursiveLayout c.cls.name))
  | fuel + 1, active, c => do
    let key := (c.owner, c.cls.name)
    if active.contains key then
      throw (.at c.cls.decl.site (.recursiveLayout c.cls.name))
    let fields ← c.cls.fields.mapM fun f =>
      storage env (struct env fuel (key :: active)) (Typing.fieldType env c f)
    return .struct fields

end Layout

namespace Env

def classStruct : StructOf :=
  Layout.struct env (env.classCount + 1) []

def machineType (t : Ty) : Except Failure Ssa.Ty :=
  Layout.value env env.classStruct t

/-- The machine type of the values of an expression type. -/
def exprType (t : ExprTy) : Except Failure Ssa.Ty :=
  env.machineType t.type

/-- The machine type of a scalar within an object. -/
def storageType (s : Scalar) : Except Failure Ssa.Ty :=
  Layout.storage env env.classStruct s

def tupleStruct (members : List Ty) : Except Failure Ssa.Ty :=
  return .struct (← Layout.values env env.classStruct members)

/-- The machine type whose size a type has: that of the object for classes and tuples. -/
def sizeType (t : Ty) : Except Failure Ssa.Ty :=
  match env.classOf? t with
  | some c => env.classStruct c
  | none =>
    match t.members?, t.scalar? with
    | some members, _ => if t.depth == 0 then env.tupleStruct members else env.machineType t
    | none, some s => env.storageType s
    | none, none => env.machineType t

end Env

end SsaCompiler
