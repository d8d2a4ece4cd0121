import SsaCompiler.Typing.Expr

/-!
# Typing of statements and methods

A declaration adds a variable to the innermost scope; the initial value decides where the variable
lives. A method with a result must return on every way through its body.
-/

namespace SsaCompiler

open SsaCompiler.Core (ExprTy Var Allocation)

/-! ## Returning on every way -/

namespace Core

mutual

/-- Whether a statement returns on every way through it. Loops count as passed by. -/
def Stmt.returns : Stmt → Bool
  | .retVoid => true
  | .ret .. => true
  | .branch _ body rest => anyReturns body && rest.returns
  | _ => false

def anyReturns : List Stmt → Bool
  | [] => false
  | s :: ss => s.returns || anyReturns ss

/-- Whether all that follows the first branch returns on every way through it. -/
def Otherwise.returns : Otherwise → Bool
  | .none => false
  | .elseIf _ body rest => anyReturns body && rest.returns
  | .final body => anyReturns body

end

end Core

namespace Typing

/-! ## Variables -/

/-- What all names of a pattern share. -/
structure Pattern where
  site : Site
  node : Mark
  /-- The parameter that is taken apart; -1 if there is none. -/
  index : Int
  alloc : Allocation

mutual

/-- Declares the variables of a pattern for a member of a tuple. An underscore declares none. -/
def bindName (p : Pattern) (path : List Nat) : BindingName → Ty → Typing (List Var)
  | .word w, t => do
    if w == "_" then
      return []
    let v ← declare p.site p.node
      { name := w, type := .val t, index := p.index, alloc := p.alloc, path := path }
    return [v]
  | .group ns, t =>
    match t.members? with
    | none => fail p.site (.patternMember t ns)
    | some ts => do
      if ns.length != ts.length then
        fail p.site (.patternCount ts ns.length)
      bindNames p path 0 ns ts

/-- Declares the variables of a pattern for the members of a tuple from place `i` on. -/
def bindNames (p : Pattern) (path : List Nat) (i : Nat) :
    List BindingName → List Ty → Typing (List Var)
  | n :: ns, t :: ts => do
    let vs ← bindName p (path ++ [i]) n t
    return vs ++ (← bindNames p path (i + 1) ns ts)
  | _, _ => return []

end

/-- Declares the variables of a pattern for a tuple. -/
def destructure (p : Pattern) (names : List BindingName) (members : List Ty) :
    Typing (List Var) := do
  if names.length != members.length then
    fail p.site (.patternCount members names.length)
  bindNames p [] 0 names members

/-- The variable that holds the length of an array with a symbolic size. -/
def dimension (here : Site) (name : String) : Typing Nat := do
  let v ← lookup here name
  checkInteger v.type (fail here (.sizeNotInteger name v.type))
  return v.id

/-- Declares a variable without an initial value. -/
def declareLocal (here : Site) (m : Mark) (name : String) (s : Scalar) : Typing Core.Stmt := do
  lift ((← read).checkScalar here s)
  if (Ty.scalar s).isVoid then
    fail here (.voidLocal name)
  let d : Declaration :=
    { name := name, type := .ofScalar s, mutable := here.kind.isMutable, alloc := .slot }
  if s.isArray then
    let dim ←
      match s.firstDim with
      | .symbolic n => some <$> dimension here n
      | .unsized => fail here (.unsizedLocal name)
      | .constant _ => pure none
    return .declare (← declare here m { d with alloc := .stack, dim := dim })
  else
    return .declare (← declare here m d)

/-- Where a variable with an initial value lives. -/
def allocation (env : Env) : Core.Expr → Allocation
  | .malloc _ => .heap
  | .newObject .. => .heap
  | .newZero _ => .stack
  | .newCell .. => .stack
  | .arrayAlloc .. => .stack
  | .arrayLiteral .. => .stack
  | .call f _ => if (env.classOf? f.result).isSome || f.result.depth > 0 then .call else .slot
  | .tuple _ => .tuple
  | _ => .slot

/-- Declares a variable with an initial value. Without a type, or with `let` for a type, the type is
that of the value. -/
def initLocal (here : Site) (m : Mark) (name : String) (declared : Option Scalar) (init : Expr) :
    Typing Core.Stmt := do
  let env ← read
  let x ← expr init
  let type : ExprTy ←
    match declared.filter fun s => !s.name.isLet with
    | some s =>
      lift (env.checkScalar here s)
      lift (env.checkAssign init.site "initialization" (.scalar s) x.type)
      pure (.ofScalar s)
    | none =>
      if x.type.isNull then
        fail here (.nullInferred name)
      if x.type.isVoid then
        fail here (.noValue init.called)
      pure x.type
  let alloc := allocation env x
  let type := if alloc == .call && type.depth > 0 then .val type.type.removeReference else type
  let mutable := here.kind.isMutable
  let alloc := if mutable && type.type.isArray && alloc != .stack then .slot else alloc
  let v ← declare here m { name := name, type := type, mutable := mutable, alloc := alloc }
  return .bind v x

/-- Declares a variable that holds a reference: a given one, or one to another variable. -/
def referenceLocal (here : Site) (m : Mark) (name : String) (init : Expr) : Typing Core.Stmt := do
  let env ← read
  let x ← expr init
  let d (t : ExprTy) : Declaration :=
    { name := name, type := t, mutable := true, reference := true, alloc := .alias }
  if x.type.depth > 0 then
    return .bind (← declare here m (d x.type)) x
  match x with
  | .var v =>
    if env.isDirect v then
      fail here (.notReferable init.called)
    match x.type.type.scalar? with
    | none => fail here (.tupleReference v.name x.type)
    | some s => return .bind (← declare here m (d (.ofScalar s.addReference))) x
  | _ => fail here (.notReferable init.called)

/-! ## Stores -/

def assign (here : Site) (m : Mark) (name : String) (value : Expr) : Typing Core.Stmt := do
  let v ← lookup here name
  if !v.mutable then
    fail here (.immutableAssign name)
  if v.type.type.isArray then
    fail here (.arrayAssign name)
  let target := if v.reference then v.type.type.removeReference else v.type.type
  let x ← expr value
  lift ((← read).checkAssign value.site "assignment" target x.type)
  note (.used m.id v)
  return .assign v x

def fieldAssign (here : Site) (m : Mark) (target : QualName) (value : Expr) :
    Typing Core.Stmt := do
  let (v, path) ← fieldPath here m target
  let type := (path.getLast?.map Core.Step.type).getD default
  if type.isArray then
    fail here (.arrayFieldAssign target.fieldName)
  let x ← expr value
  lift ((← read).checkAssign value.site "field assignment" (.scalar type) x.type)
  return .fieldAssign v path x

def indexAssign (here : Site) (target : Mark) (array index value : Expr) : Typing Core.Stmt := do
  let x ← expr array
  let i ← expr index
  let (checked, elem) ← element (site .index target) array index x i
  note (.typed target.id (.ofScalar elem))
  if (Ty.scalar elem).isArray then
    fail here (.arrayElementAssign (.ofScalar elem))
  match x.root? with
  | some v =>
    if !v.mutable then
      fail here (.immutableElement v.name)
  | none => pure ()
  let y ← expr value
  lift ((← read).checkAssign value.site "element assignment" (.scalar elem) y.type)
  return .indexAssign x i checked elem y

def free (here : Site) (m : Mark) (name : String) : Typing Core.Stmt := do
  let v ← lookup here name
  let t := v.type.type
  if t.isTuple || (t.isArray && v.alloc != .heap) then
    fail here (.compositeFree name v.type)
  if v.alloc != .heap && ((← read).classOf? t).isNone then
    fail here (.unownedFree name)
  note (.used m.id v)
  return .free v

def ret (here : Site) (result : Ty) (value : Option Expr) : Typing Core.Stmt := do
  match value with
  | none =>
    if !result.isVoid then
      fail here (.missingValue result)
    return .retVoid
  | some e =>
    if result.isVoid then
      fail here .extraValue
    let x ← expr e
    lift ((← read).checkAssign e.site "return" result x.type)
    return .ret x result

/-! ## Statements -/

mutual

/-- Resolves a statement of a method of a result type. -/
def stmt (result : Ty) : Stmt → Typing Core.Stmt
  | .expr _ x => do
    return .expr (← expr x)
  | .declare m type name => do
    let here := site .localDeclare m
    if type.name.isLet then
      fail here (.letWithoutValue name)
    declareLocal here m name type
  | .define m type name value => initLocal (site .localDeclareAssign m) m name (some type) value
  | .immutable m name value => initLocal (site .immutableLocal m) m name none value
  | .mutable m type name (some value) => initLocal (site .mutableLocal m) m name type value
  | .mutable m (some type) name none => declareLocal (site .mutableLocal m) m name type
  | .mutable m none name none => fail (site .mutableLocal m) (.mutWithoutValue name)
  | .reference m name value => referenceLocal (site .referenceLocal m) m name value
  | .destructure m names value => do
    let here := site .destructure m
    let x ← expr value
    match x.type.type.members? with
    | none => fail here (.patternValue x.type)
    | some members =>
      if x.type.depth > 0 then
        fail here (.patternValue x.type)
      return .destructure (← destructure ⟨here, m, -1, .slot⟩ names members) x
  | .assign m name value => assign (site .localAssign m) m name value
  | .fieldAssign m target value => fieldAssign (site .fieldAssign m) m target value
  | .indexAssign m target array index value =>
    indexAssign (site .indexAssign m) target array index value
  | .branch _ cond body rest => do
    let c ← condition cond
    let b ← inBlock (stmts result body)
    return .branch c b (← otherwise result rest)
  | .loop _ cond body => do
    let c ← condition cond
    return .loop c (← inBlock (stmts result body))
  | .ret m value => ret (site .ret m) result value
  | .free m name => free (site .free m) m name

def stmts (result : Ty) : List Stmt → Typing (List Core.Stmt)
  | [] => return []
  | s :: ss => do
    let t ← stmt result s
    return t :: (← stmts result ss)

def otherwise (result : Ty) : Otherwise → Typing Core.Otherwise
  | .none => return .none
  | .elseIf _ cond body rest => do
    let c ← condition cond
    let b ← inBlock (stmts result body)
    return .elseIf c b (← otherwise result rest)
  | .final _ body => do
    return .final (← inBlock (stmts result body))

end

/-! ## Methods -/

def declareParam (m : Method) (i : Nat) (p : Param) : Typing (List Var) := do
  match p.name with
  | .word w =>
    let isRef := p.type.depth > 0
    let dim ←
      match p.type.scalar?.map Scalar.firstDim with
      | some (.symbolic n) => some <$> dimension m.site n
      | _ => pure none
    let d : Declaration :=
      { name := w, type := .val p.type, index := i, mutable := p.mutable || isRef,
        reference := isRef, alloc := .param, dim := dim }
    return [← declare m.site m.mark d]
  | .group names => destructure ⟨m.site, m.mark, i, .param⟩ names (p.type.members?.getD [])

/-- Declares the variables of parameters from place `i` on. -/
def declareParams (m : Method) (i : Nat) : List Param → Typing (List Var)
  | [] => return []
  | p :: ps => do
    let vs ← declareParam m i p
    return vs ++ (← declareParams m (i + 1) ps)

/-- Whether a method is only declared, and its body is elsewhere. -/
def isExternal (m : Method) : Bool :=
  m.modifiers.any fun w => w == "extern" || w == "native"

def method (f : MethodDef) : Typing Core.Method := do
  let m := f.method
  let result := m.result.unnamed
  freshScope
  let vars ← declareParams m 0 m.params
  let body ← stmts result m.body
  if !result.isVoid && !Core.anyReturns body then
    fail m.site (.missingReturn m.name)
  return ⟨f, vars, body⟩

def defaults (cls : ClassDef) : List FieldDef → Typing (List Core.DefaultValue)
  | [] => return []
  | f :: fs =>
    match f.value with
    | none => defaults cls fs
    | some e => do
      freshScope
      let x ← expr e
      lift ((← read).checkAssign e.site "field default" (.scalar f.type) x.type)
      return ⟨cls.name, f.index, x⟩ :: (← defaults cls fs)

end Typing

end SsaCompiler
