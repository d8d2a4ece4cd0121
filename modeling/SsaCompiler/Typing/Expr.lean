import SsaCompiler.Typing.Literal
import SsaCompiler.Typing.Monad

/-!
# Typing of expressions

Every expression is resolved after its parts. What is left to do then is a check of the types of the
parts, which the definitions of the first sections do.
-/

namespace SsaCompiler

open SsaCompiler.Core (ExprTy Var Step)

def Expr.called : Expr → String
  | .group _ x => x.called
  | .accessor _ name => name.render
  | .call _ name _ _ => name.render ++ "(...)"
  | .literal _ _ text => text
  | e => (Node.kindOfExpr e).name.toLower

/-- Whether the value of a variable is kept without a slot. Such a variable has no address. -/
def Env.isDirect (env : Env) (v : Var) : Bool :=
  let t := v.type.type
  if v.reference then false
  else if t.isArray then v.alloc == .stack || v.alloc == .param || v.alloc == .heap
  else if v.mutable || ((env.classOf? t).isNone && !t.isTuple) then false
  else v.alloc == .heap || v.alloc == .call || v.alloc == .tuple || v.alloc == .param

namespace Typing

def site (k : NodeKind) (m : Mark) : Site :=
  ⟨k, m.pos⟩

/-- Writes the type of a resolved node down. -/
def recorded (m : Mark) (x : Typing Core.Expr) : Typing Core.Expr := do
  let e ← x
  note (.typed m.id e.type)
  return e

/-! ## Names -/

/-- The type of a field of a class, as the unit writes it. -/
def fieldType (env : Env) (c : ClassAt) (f : FieldDef) : Scalar :=
  env.scalarFrom c.owner f.type

/-- The steps of a path of fields from a value of a type. -/
def steps (here : Site) (v : Var) : ExprTy → List String → Typing (List Step)
  | _, [] => return []
  | t, w :: ws => do
    let env ← read
    match env.classOf? t.type with
    | none => fail here (.noFields v.name t w)
    | some c =>
      match c.cls.field? w with
      | none => fail here (.noField c.cls.name w (c.cls.fields.map FieldDef.name))
      | some f =>
        let type := fieldType env c f
        return ⟨f.index, type⟩ :: (← steps here v (.ofScalar type) ws)

def fieldPath (here : Site) (node : Mark) (q : QualName) : Typing (Var × List Step) := do
  let v ← lookup here q.direct
  note (.used node.id v)
  if v.reference then
    fail here (.fieldOfReference v.name)
  return (v, ← steps here v v.type q.segments.tail)

def accessor (m : Mark) (q : QualName) : Typing Core.Expr := do
  if q.isPath then
    let (v, path) ← fieldPath (site .accessor m) m q
    return .field v path
  else
    let v ← lookup (site .accessor m) q.direct
    note (.used m.id v)
    return .var v

def refAccess (m : Mark) (name : String) : Typing Core.Expr := do
  let here := site .refAccess m
  let v ← lookup here name
  if !v.mutable then
    fail here (.immutableReference name)
  if (← read).isDirect v then
    fail here (.notReferable name)
  match v.type.type.scalar? with
  | none => fail here (.tupleReference name v.type)
  | some s =>
    note (.used m.id v)
    return .refTo v s.addReference

def derefAccess (m : Mark) (name : String) : Typing Core.Expr := do
  let here := site .derefAccess m
  let v ← lookup here name
  match v.type.type.scalar? with
  | none => fail here (.noReference name v.type)
  | some s =>
    if s.depth == 0 then
      fail here (.noReference name v.type)
    note (.used m.id v)
    return .deref v (s.removeReference?.getD default)

/-! ## Constants and sizes -/

def literal (m : Mark) (kind : Token.Kind) (text : String) : Typing Core.Expr :=
  match Literal.read? kind text with
  | none => fail (site .literal m) (.strangeLiteral (.of kind text))
  | some (t, none) => fail (site .literal m) (.overflow text t)
  | some (_, some e) => return e

def checkSized (here : Site) (t : ExprTy) : Typing Unit := do
  if t.isVoid || t.isNull then
    fail here (.sizeofNothing t)
  if t.type.isArray && !t.type.scalar?.any fun s => s.firstDim.isConstant then
    fail here (.sizeofUnsized t)

def malloc (m : Mark) (s : Scalar) : Typing Core.Expr := do
  let here := site .malloc m
  lift ((← read).checkScalar here s)
  if (Ty.scalar s).isVoid || s.depth > 0 then
    fail here (.notAllocatable s)
  if s.isArray && !s.firstDim.isConstant then
    fail here .mallocSize
  return .malloc s

/-! ## Operators -/

def castTo (m : Mark) (source : Expr) (target : Scalar) (x : Core.Expr) : Typing Core.Expr := do
  let here := site .cast m
  lift ((← read).checkScalar here target)
  let convertible (p : Primitive) : Bool := p.isNumeric || p.isBoolean
  match x.type.primitive?, target.primitive? with
  | some p, some q =>
    if p == q then
      fail here (.redundantCast source.called target)
    if !convertible p || !convertible q then
      fail here (.impossibleCast x.type target)
    return .cast p q x
  | _, _ => fail here (.castOperand x.type target)

def unary (m : Mark) (op : UnaryOp) (source : Expr) (x : Core.Expr) : Typing Core.Expr := do
  let here := site .unary m
  let refuse : Typing Core.Expr := fail here (.unaryOperand op source.called x.type)
  match op with
  | .neg =>
    match x.type.primitive? with
    | some p => if p.isNumeric then return .neg p x else refuse
    | none => refuse
  | .not =>
    match x.type.primitive? with
    | some p => if p.isBoolean then return .not x else refuse
    | none => refuse
  | .step up after =>
    match x with
    | .var v =>
      if !v.mutable || v.reference then
        fail here (.stepImmutable op v.name)
      match x.type.primitive? with
      | some p => if p.isInteger then return .step v p up after else refuse
      | none => refuse
    | _ => fail here (.stepTarget op source.called)

/-- Whether two values can be compared for being the same: truth values, an address and null, or
addresses of one type. -/
def sameComparable (env : Env) (x y : ExprTy) : Bool :=
  (x.primitive? == some .bool && y.primitive? == some .bool)
    || (x.isNull && env.isAddress y.type)
    || (y.isNull && env.isAddress x.type)
    || (env.isAddress x.type && x.type.identical y.type && x.depth == y.depth)

/-- The two primitive number types of operands. -/
def numeric? (x y : ExprTy) : Option (Primitive × Primitive) :=
  match x.primitive?, y.primitive? with
  | some p, some q => if p.isNumeric && q.isNumeric then some (p, q) else none
  | _, _ => none

def binary (m : Mark) (op : BinaryOp) (x y : Core.Expr) : Typing Core.Expr := do
  let here := site .binary m
  let refuse : Typing Core.Expr := fail here (.binaryOperands op x.type y.type)
  match op with
  | .and | .or =>
    if x.type.primitive? == some .bool && y.type.primitive? == some .bool then
      return .logical op x y
    else refuse
  | .eq | .ne | .gt | .ge | .lt | .le =>
    match numeric? x.type y.type with
    | some (p, q) => return .compare op p q x y
    | none =>
      if (op == .eq || op == .ne) && sameComparable (← read) x.type y.type then
        return .same op x y
      else refuse
  | .pow =>
    match numeric? x.type y.type with
    | some (p, q) =>
      if p.isFloat || q.isFloat then
        fail here (.floatPower x.type y.type)
      return .arith op p q x y
    | none => refuse
  | .add | .sub | .mul | .div | .mod =>
    match numeric? x.type y.type with
    | some (p, q) => return .arith op p q x y
    | none => refuse
  | .slice | .lambda | .arrow | .assign => fail here (.unsupportedOperator op)

def selection (m : Mark) (c x y : Core.Expr) : Typing Core.Expr := do
  let env ← read
  if x.type.isNull && env.isAddress y.type.type then
    return .selection y.type c x y
  if y.type.isNull && env.isAddress x.type.type then
    return .selection x.type c x y
  if x.type.type.identical y.type.type && x.type.depth == y.type.depth && !x.type.isVoid then
    return .selection x.type c x y
  match numeric? x.type y.type with
  | some (p, q) => return .selection (.ofPrimitive (p.promote q)) c x y
  | none => fail (site .selection m) (.selectionTypes x.type y.type)

/-! ## Arrays -/

def checkInteger (t : ExprTy) (refuse : Typing Unit) : Typing Unit :=
  if t.primitive?.any Primitive.isInteger then return () else refuse

/-- An element of an array. The flag of the result says that the index is a constant that lies
within. -/
def element (here : Site) (sourceArray sourceIndex : Expr) (x i : Core.Expr) :
    Typing (Bool × Scalar) := do
  match x.type.type.scalar? with
  | none => fail here (.notIndexable sourceArray.called x.type)
  | some s =>
    if !s.isArray || s.depth > 0 then
      fail here (.notIndexable sourceArray.called x.type)
    checkInteger i.type (fail sourceIndex.site (.indexType i.type))
    match s.firstDim.size?, Literal.constant? sourceIndex with
    | some n, some k =>
      if k < 0 || k ≥ n then
        fail sourceIndex.site (.indexRange k n)
      return (true, s.element)
    | _, _ => return (false, s.element)

/-- The element type of an array literal, from its first element. -/
def firstElement (source : Expr) (x : Core.Expr) : Typing Scalar :=
  let refuse : Typing Scalar := fail source.site (.arrayElement source.called)
  match x.type.type.scalar? with
  | none => refuse
  | some s => if s.isArray || x.type.isVoid || x.type.isNull then refuse else return s

def checkElement (first : ExprTy) (source : Expr) (x : Core.Expr) : Typing Unit :=
  if x.type.type.identical first.type && x.type.depth == first.depth then return ()
  else fail source.site (.mismatch "array literal" first x.type)

def sizeDimension (source : Expr) : Expr → Typing Dimension
  | .group _ x => sizeDimension source x
  | .literal m kind text =>
    match Literal.constant? (.literal m kind text) with
    | some n => do
      if n < 0 then
        fail source.site (.negativeSize n)
      return .ofInt n
    | none => return .unsized
  | .accessor _ q => return if q.isPath then .unsized else .symbolic q.direct
  | _ => return .unsized

/-! ## Objects and calls -/

def checkNew (m : Mark) (s : Scalar) : Typing Unit := do
  let here := site .new m
  lift ((← read).checkScalar here s)
  if s.depth > 0 || s.isArray || (Ty.scalar s).isVoid then
    fail here (.notAllocatable s)

/-- Refuses arguments that do not fit the leading fields of a class. -/
def checkFields (env : Env) (c : ClassAt) :
    List (Expr × Core.Expr) → List FieldDef → Typing Unit
  | (source, x) :: rest, f :: fs => do
    if f.type.isArray then
      fail source.site (.arrayFieldArgument f.name)
    lift (env.checkAssign source.site ("new " ++ c.cls.name) (.scalar (fieldType env c f)) x.type)
    checkFields env c rest fs
  | _, _ => return ()

def newOf (m : Mark) (s : Scalar) (sources : List Expr) (args : List Core.Expr) :
    Typing Core.Expr := do
  let here := site .new m
  let env ← read
  if s.primitive?.isSome then
    match sources, args with
    | _, [] => return .newZero s
    | source :: _, [x] =>
      lift (env.checkAssign source.site ("new " ++ s.render) (.scalar s) x.type)
      return .newCell s x
    | _, _ => fail here (.cellArguments s)
  else
    match env.classOf? (.scalar s) with
    | none => throw (.internal (.unresolvedClass s.name))
    | some c =>
      if args.length > c.cls.fields.length then
        fail here (.objectArguments c.cls.name args.length c.cls.fields.length)
      checkFields env c (sources.zip args) c.cls.fields
      return .newObject s c args

def checkPrintable : List (Expr × Core.Expr) → Typing Unit
  | [] => return ()
  | (source, x) :: rest => do
    if x.type.isVoid || x.type.type.isTuple then
      fail source.site (.notPrintable source.called)
    checkPrintable rest

/-- Refuses an argument whose reference depth is not that of the parameter. -/
def checkDepths (name : QualName) :
    (place : Nat) → List Param → List (Expr × Core.Expr) → Typing Unit
  | i, p :: ps, (source, x) :: rest => do
    if p.type.depth != x.type.depth then
      fail source.site (.argumentDepth i name x.type p.type)
    checkDepths name (i + 1) ps rest
  | _, _, _ => return ()

def callFault (env : Env) (name : QualName) (args : List Core.Expr) (r : Option MethodLookup) :
    Cause :=
  if r.any fun r => !(r.package.overloads r.key).isEmpty then
    .noOverload name.render (args.map Core.Expr.type)
  else if name.isPath && (env.imported? name.direct).isNone
      && (env.own.class? name.direct).isNone then
    .undefinedPath name.direct
  else .undefinedMethod name.render env.methodNames

def callOf (m : Mark) (name : QualName) (typeArgs : Option (List TypeArg)) (sources : List Expr)
    (args : List Core.Expr) : Typing Core.Expr := do
  let here := site .call m
  let env ← read
  if typeArgs.isSome then
    fail here (.genericCall name)
  let r := env.lookupMethod name (args.map fun x => x.type.type)
  match r.bind fun r => r.found.map fun f => (r, f) with
  | some (r, f) =>
    checkDepths name 1 f.method.params (sources.zip args)
    note (.called m.id f)
    return .call ⟨r.owner, r.key, f, f.method.paramTypes.map (env.typeFrom r.owner),
      env.typeFrom r.owner f.method.result.unnamed⟩ args
  | none =>
    if name.render == "println" then
      checkPrintable (sources.zip args)
      return .println args
    fail here (callFault env name args r)

/-! ## Expressions -/

mutual

/-- Resolves an expression and writes its type down. -/
def expr : Expr → Typing Core.Expr
  | .literal m kind text => recorded m (literal m kind text)
  | .accessor m q => recorded m (accessor m q)
  | .call m name typeArgs args => recorded m do
    let xs ← exprs args
    callOf m name typeArgs args xs
  | .new m s args => recorded m do
    checkNew m s
    let xs ← exprs args
    newOf m s args xs
  | .malloc m s => recorded m (malloc m s)
  | .sizeofType m s => recorded m do
    let here := site .sizeofType m
    lift ((← read).checkScalar here s)
    checkSized here (.ofScalar s)
    return .sizeof (.ofScalar s)
  | .sizeofValue m x => recorded m do
    let v ← expr x
    checkSized (site .sizeofValue m) v.type
    return .sizeof v.type
  | .tuple m xs => recorded m do
    return .tuple (← members xs)
  | .group m x => recorded m (expr x)
  | .cast m s x => recorded m do
    let v ← expr x
    castTo m x s v
  | .unary m op x => recorded m do
    let v ← expr x
    unary m op x v
  | .binary m op x y => recorded m do
    let v ← expr x
    let w ← expr y
    binary m op v w
  | .refAccess m name => recorded m (refAccess m name)
  | .derefAccess m name => recorded m (derefAccess m name)
  | .index m x i => recorded m do
    let v ← expr x
    let w ← expr i
    let (checked, elem) ← element (site .index m) x i v w
    return .index v w checked elem
  | .arrayLiteral m [] => recorded m (fail (site .arrayLiteral m) .emptyArray)
  | .arrayLiteral m (x :: xs) => recorded m do
    let v ← expr x
    let elem ← firstElement x v
    let vs ← elements v.type xs
    return .arrayLiteral (elem.arrayOf (.ofInt (xs.length + 1))) (v :: vs)
  | .arrayAlloc m elem size => recorded m do
    let here := site .arrayAlloc m
    lift ((← read).checkScalar here elem)
    if (Ty.scalar elem).isVoid then
      fail here .arrayOfVoid
    let n ← expr size
    checkInteger n.type (fail size.site (.arraySizeType n.type))
    let dim ← sizeDimension size size
    return .arrayAlloc (elem.arrayOf dim) n
  | .selection m c x y => recorded m do
    let b ← expr c
    if b.type.primitive? != some .bool then
      fail c.site (.conditionType c.called b.type)
    let v ← expr x
    let w ← expr y
    selection m b v w

def exprs : List Expr → Typing (List Core.Expr)
  | [] => return []
  | x :: xs => do
    let v ← expr x
    return v :: (← exprs xs)

def members : List Expr → Typing (List Core.Expr)
  | [] => return []
  | x :: xs => do
    let v ← expr x
    if v.type.isVoid || v.type.isNull then
      fail x.site (.tupleMember x.called)
    return v :: (← members xs)

/-- Resolves the elements of an array literal behind the first one. -/
def elements (first : ExprTy) : List Expr → Typing (List Core.Expr)
  | [] => return []
  | x :: xs => do
    let v ← expr x
    checkElement first x v
    return v :: (← elements first xs)

end

def condition (c : Expr) : Typing Core.Expr := do
  let b ← expr c
  if b.type.primitive? != some .bool then
    fail c.site (.conditionType c.called b.type)
  return b

end Typing

end SsaCompiler
