import SsaCompiler.Lowering.Stmt
import SsaCompiler.Unit.Basic

/-!
# Compilation of units

A unit is compiled in phases, each of which goes over all declarations before the next one starts.
The first three collect what the unit declares. They can be run alone, which gives the package that
other units see; nothing is looked up in other packages then. All five give the module of the unit.

The first failure ends the compilation. What has been found out until then is kept.
-/

namespace SsaCompiler

structure Compilation where
  unit : SourceUnit
  /-- The packages that can be imported; none if the declarations are only collected. -/
  packages : Option (List Package)
  env : Env
  typing : TypingState := {}
  lowering : LoweringState
  methods : List Core.Method := []
  defaults : List Core.DefaultValue := []
  /-- How many declarations the first phase has entered. -/
  entered : Nat := 0
  /-- What happened, the latest first. -/
  events : List Event := []

namespace Compilation

def start (u : SourceUnit) (packages : Option (List Package)) : Compilation where
  unit := u
  packages := packages
  env := { own := { name := Package.mainName } }
  lowering := { builder := { module := { name := u.moduleName } } }

end Compilation

abbrev Compile (α : Type) : Type := ExceptT Failure (StateM Compilation) α

namespace Compile

variable {α : Type}

def fail (site : Site) (cause : Cause) : Compile α :=
  throw (.at site cause)

def lift (x : Env → Except Failure α) : Compile α := do
  match x (← get).env with
  | .ok a => return a
  | .error e => throw e

def hasModule : Compile Bool :=
  return (← get).packages.isSome

def typing (x : Typing α) : Compile α := do
  let s ← get
  let (r, t) := (x.run s.env).run s.typing
  set { s with typing := t }
  match r with
  | .ok a => return a
  | .error e => throw e

def lowering (x : Lowering α) : Compile α := do
  let s ← get
  let (r, l) := (x.run s.env).run s.lowering
  set { s with lowering := l }
  match r with
  | .ok a => return a
  | .error e => throw e

def modifyOwn (f : Package → Package) : Compile Unit :=
  modify fun s => { s with env := { s.env with own := f s.env.own } }

/-- Goes through a node in a phase. When the step fails the node is not left. -/
def observe (p : Phase) (n : Node) (x : Compile Unit) : Compile Unit := do
  modify fun s => { s with events := ⟨true, p, n⟩ :: s.events }
  x
  modify fun s => { s with events := ⟨false, p, n⟩ :: s.events }

def methodsOf (members : List Member) : List Method :=
  members.filterMap fun
    | .method m => some m
    | _ => none

/-- Goes through the methods of a class in a phase. -/
def eachMethod (p : Phase) (f : Method → Compile Unit) : List Method → Compile Unit
  | [] => return ()
  | m :: ms => do
    observe p (.member (.method m)) (f m)
    eachMethod p f ms

def own (m : Method) : Compile MethodDef :=
  return ⟨(← get).unit.number, m⟩

/-! ## Package name and imports -/

/-- The package of a given name among those that can be imported. -/
def importable (site : Site) (packages : List Package) (name : String) : Compile Package :=
  match packages.reverse.find? fun p => p.name == name with
  | some p => return p
  | none => fail site (.packageNotFound name (packages.map Package.name))

/-- Takes the package name and the imports. -/
def preProcess (d : Decl) : Compile Unit := do
  modify fun s => { s with entered := s.entered + 1 }
  match d with
  | .package _ name => modifyOwn fun p => { p with name := name }
  | .importing m name =>
    match (← get).packages with
    | none => modifyOwn fun p => { p with imports := p.imports ++ [name] }
    | some packages =>
      let p ← importable ⟨.importing, m.pos⟩ packages name
      modify fun s => { s with env := s.env.addImport p }
  | .using m name =>
    match (← get).packages with
    | none => modifyOwn fun p => { p with usings := p.usings ++ [name] }
    | some packages =>
      let p ← importable ⟨.using, m.pos⟩ packages name
      modify fun s => { s with env := s.env.addUsing p }
  | _ => return ()

/-! ## Classes -/

def postProcessType (d : Decl) : Compile Unit := do
  match d with
  | .classDecl c =>
    if !(c.typeParams.getD []).isEmpty then
      fail c.site (.genericClass c.name)
    if (Primitive.ofName? c.name).isSome then
      fail c.site (.primitiveClass c.name)
    let s ← get
    let (p, isNew) := s.env.own.defineClass s.unit.number c
    if !isNew then
      fail c.site (.classRedeclared c.name)
    modifyOwn fun _ => p
  | _ => return ()

/-! ## Fields, methods and their functions -/

/-- Why a field cannot be laid out, if it cannot. -/
def fieldFault? (f : FieldDef) : Option Cause :=
  if (Ty.scalar f.type).isVoid then some (.voidField f.name)
  else if f.type.dims.any fun d => !d.isConstant then some (.unsizedField f.name)
  else if f.type.isArray && f.value.isSome then some (.arrayFieldDefault f.name)
  else none

/-- Checks the fields of a class behind fields of the given names. -/
def checkFields (c : ClassDecl) (seen : List String) : List FieldDef → Compile Unit
  | [] => return ()
  | f :: fs => do
    if seen.contains f.name then
      fail c.site (.fieldRedeclared f.name c.name)
    if ← hasModule then
      lift fun env => env.checkScalar c.site f.type
      match fieldFault? f with
      | some cause => fail c.site cause
      | none => pure ()
    checkFields c (f.name :: seen) fs

/-- Why a parameter is refused, if it is. -/
def paramFault? (env : Env) (m : Method) (place : Nat) (p : Param) : Option Cause :=
  if p.variadic then some (.variadicParam p.name)
  else
    match env.typeFault? p.type with
    | some c => some c
    | none =>
      if p.type.isVoid then some (.voidParam place m.name)
      else
        match p.name with
        | .word _ => none
        | .group names =>
          if p.type.members?.any fun ts => ts.length == names.length then none
          else some (.paramPattern p.type names)

/-- Why the parameters from a place on are refused, if they are. -/
def paramsFault? (env : Env) (m : Method) : (place : Nat) → List Param → Option Cause
  | _, [] => none
  | i, p :: ps =>
    match paramFault? env m i p with
    | some c => some c
    | none => paramsFault? env m (i + 1) ps

def isLambda : Ty → Bool
  | .namedLambda .. => true
  | _ => false

/-- Why the head of a method is refused, if it is. -/
def headFault? (env : Env) (m : Method) : Option Cause :=
  if !(m.typeParams.getD []).isEmpty then some (.genericMethod m.name)
  else if Typing.isExternal m && !m.body.isEmpty then some (.externBody m.name)
  else if !Typing.isExternal m
      && ((Target.external? m.name).isSome || Target.isHelperName m.name) then
    some (.runtimeName m.name)
  else if isLambda m.result then some .lambdaType
  else
    match env.typeFault? m.result.unnamed with
    | some c => some c
    | none => paramsFault? env m 1 m.params

/-- Defines a method under a name, and its function. -/
def defineMethod (key : String) (m : Method) : Compile Unit := do
  let f ← own m
  let env := (← get).env
  if env.own.defines key f then
    return ()
  let isBuilt ← hasModule
  if isBuilt then
    match headFault? env m with
    | some c => fail m.site c
    | none => pure ()
  if (env.own.overloads key).any fun o => Ty.identicalAll o.method.paramTypes m.paramTypes then
    fail m.site (.methodRedeclared key)
  modifyOwn fun p => p.defineMethod key f
  if isBuilt then
    let _ ← lowering (Lowering.function .own key f)

/-- Declares the fields and methods of a declaration. -/
def postProcessMember (d : Decl) : Compile Unit := do
  match d with
  | .classDecl c =>
    match (← get).env.own.class? c.name with
    | none => return ()
    | some cls =>
      checkFields c [] cls.fields
      if ← hasModule then
        let _ ← lift fun env => env.classStruct ⟨.own, cls⟩
      eachMethod .postProcessMember (fun m => defineMethod (c.name ++ "." ++ m.name) m)
        (methodsOf c.members)
  | .method m => defineMethod m.name m
  | _ => return ()

/-! ## Bodies -/

def useMethod (m : Method) : Compile Unit := do
  if !Typing.isExternal m then
    let f ← own m
    let r ← typing (Typing.method f)
    modify fun s => { s with methods := r :: s.methods }

/-- Resolves the bodies and default values of a declaration. -/
def postProcessUse (d : Decl) : Compile Unit := do
  match d with
  | .classDecl c =>
    match (← get).env.own.class? c.name with
    | none => return ()
    | some cls =>
      let ds ← typing (Typing.defaults cls cls.fields)
      modify fun s => { s with defaults := s.defaults ++ ds }
      eachMethod .postProcessUse useMethod (methodsOf c.members)
  | .method m => useMethod m
  | _ => return ()

/-! ## Machine code -/

def generateMethod (m : Method) : Compile Unit := do
  let f ← own m
  let s ← get
  match s.methods.find? fun r => r.origin.same f with
  | none => return ()
  | some r =>
    let dv := Lowering.defaultsWithin s.defaults (s.env.own.classes.length + 1)
    lowering (Lowering.method dv r)

def generate (d : Decl) : Compile Unit := do
  match d with
  | .classDecl c => eachMethod .generate generateMethod (methodsOf c.members)
  | .method m => generateMethod m
  | _ => return ()

/-! ## Phases -/

def dispatch : Phase → Decl → Compile Unit
  | .preProcess => preProcess
  | .postProcessType => postProcessType
  | .postProcessMember => postProcessMember
  | .postProcessUse => postProcessUse
  | .generate => generate

def phase (p : Phase) : List Decl → Compile Unit
  | [] => return ()
  | d :: ds => do
    observe p (.decl d) (dispatch p d)
    phase p ds

/-- Runs phases over the declarations of the unit. -/
def phases : List Phase → Compile Unit
  | [] => return ()
  | p :: ps => do
    phase p (← get).unit.decls
    phases ps

end Compile

namespace SourceUnit

def declare (u : SourceUnit) : Except Failure Package :=
  match (Compile.phases Phase.declaring).run (Compilation.start u none) with
  | (.ok _, s) => .ok s.env.own
  | (.error e, _) => .error e

/-- The module of a unit that may import the given packages, with all that was found out. -/
def compile (u : SourceUnit) (packages : List Package) : Except Failure Ssa.Module × Compilation :=
  match (Compile.phases Phase.all).run (Compilation.start u (some packages)) with
  | (.ok _, s) => (.ok s.lowering.builder.module, s)
  | (.error e, s) => (.error e, s)

end SourceUnit

/-! ## What was found out -/

namespace Compilation

variable (c : Compilation)

def typeOf? (node : Nat) : Option Core.ExprTy :=
  c.typing.facts.findSome? fun
    | .typed n t => if n == node then some t else none
    | _ => none

/-- The variables that a node declares, in order. -/
def varsOf (node : Nat) : List Core.Var :=
  (c.typing.facts.filterMap fun
    | .declared n v => if n == node then some v else none
    | _ => none).reverse

def useOf? (node : Nat) : Option Core.Var :=
  c.typing.facts.findSome? fun
    | .used n v => if n == node then some v else none
    | _ => none

def callOf? (node : Nat) : Option MethodDef :=
  c.typing.facts.findSome? fun
    | .called n m => if n == node then some m else none
    | _ => none

def isBound (v : Core.Var) : Bool :=
  (c.lowering.storage.lookup v.id).isSome

/-- The nodes of the unit in order, each with its parent if the first phase got there. -/
def nodes (c : Compilation) : List (Node × Option Node) :=
  let outlines := c.unit.decls.map Outline.ofDecl
  (outlines.take c.entered).flatMap (Outline.nodes none)
    ++ (outlines.drop c.entered).flatMap fun o => (o.nodes none).map fun (n, _) => (n, none)

end Compilation

end SsaCompiler
