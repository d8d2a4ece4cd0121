import SsaCompiler.Lowering.Expr

/-!
# Lowering of statements and methods

Statements behind a return are dropped. The block where the ways of a conditional statement meet is
made only if one of them gets there.
-/

namespace SsaCompiler.Lowering

open SsaCompiler.Core (Var)
open Ssa (ValueRef BlockRef)

/-! ## Variables -/

/-- Binds a variable without an initial value: an array of its size, or a slot with zero. -/
def bindDeclared (v : Var) : Lowering Unit := do
  match v.type.type.scalar? with
  | none => fail (.notScalar v.name)
  | some s =>
    if s.isArray then
      if s.firstDim.size?.isSome then
        let t ← lift (·.storageType s)
        let p ← build (.alloca t v.name)
        bind v ⟨p, true, none⟩
      else
        let count ← readSize v
        let length ← build (.intCast count (.int 32))
        let t ← lift (·.storageType s.element)
        let p ← build (.allocaMany t count v.name)
        bind v ⟨p, true, some length⟩
    else
      let t ← lift (·.machineType (.scalar s))
      let slot ← build (.alloca t v.name)
      let z ← zero t
      build (.store z slot)
      bind v ⟨slot, false, none⟩

/-- Binds a variable that holds a reference: a given one, or the address of another variable. -/
def bindAlias (v : Var) (x : Operand) (source : Core.Expr) : Lowering Unit := do
  let p ←
    if x.type.depth > 0 then x.value
    else
      match source with
      | .var w => pure (← storageOf w).addr
      | _ => fail .noAddress
  let t ← lift (·.exprType v.type)
  let slot ← build (.alloca t v.name)
  build (.store p slot)
  bind v ⟨slot, false, none⟩

/-- Binds a variable to its initial value, according to where it lives. -/
def bindLocal (dv : Defaults) (v : Var) (init : Core.Expr) : Lowering Unit := do
  let env ← read
  let x := operand dv init
  let usual : Lowering Unit := do
    bindValue v (← x.as v.type) none
  match v.alloc with
  | .heap | .stack =>
    if env.isCell v.type.type then
      bind v ⟨← address dv init, false, none⟩
    else
      match init with
      | .arrayAlloc s size =>
        let (p, length) ← newArray s (operand dv size)
        bindValue v (← coerce p x.type v.type) length
      | _ => usual
  | .call =>
    if x.type.depth > 0 && v.type.depth == 0 then
      bind v ⟨← x.value, false, none⟩
    else usual
  | .alias => bindAlias v x init
  | _ => usual

def bindParam (params : List ValueRef) (v : Var) : Lowering Unit := do
  let x ← loadPath (params.getD v.index.toNat 0) v.path
  let length ←
    match v.dim with
    | some d => do
      let n ← readNumber d
      some <$> build (.intCast n (.int 32))
    | none => pure none
  bindValue v x length

/-! ## Returns -/

/-- Stores operands into the members of a tuple of given types from place `i` on. -/
def fillConverted (p : ValueRef) : (i : Nat) → List Operand → List Ty → Lowering Unit
  | i, o :: os, t :: ts => do
    let x ← o.as (.val t)
    let q ← build (.fieldPtr p i)
    build (.store x q)
    fillConverted p (i + 1) os ts
  | _, _, _ => return ()

/-- Copies the members of a tuple from place `i` on, for as many as there are types. -/
def copyMembers (source target : ValueRef) : (i : Nat) → List Ty → Lowering Unit
  | _, [] => return ()
  | i, _ :: ts => do
    let p ← build (.fieldPtr source i)
    let x ← build (.load p)
    let q ← build (.fieldPtr target i)
    build (.store x q)
    copyMembers source target (i + 1) ts

/-- A tuple on the heap, so that it outlives the function that returns it. -/
def heapTuple (dv : Defaults) (x : Core.Expr) (members : List Ty) : Lowering ValueRef := do
  declareHeap
  let t ← lift (·.tupleStruct members)
  let p ← build (.malloc t)
  match x with
  | .tuple xs => fillConverted p 0 (operands dv xs) members
  | _ =>
    let source ← expr dv x
    copyMembers source p 0 members
  return p

def ret (dv : Defaults) (x : Core.Expr) (result : Ty) : Lowering Unit := do
  let v ←
    match result.members?, result.depth with
    | some members, 0 => heapTuple dv x members
    | _, _ => (operand dv x).as (.val result)
  build (.ret (some v))

/-! ## Statements -/

/-- Goes on behind a conditional statement if the current block gets there. The block behind it is
made if there is none. -/
def merge (after : Option BlockRef) : Lowering (Option BlockRef) := do
  if ← build .isTerminated then
    return after
  let b ←
    match after with
    | some b => pure b
    | none => newBlock "if.end"
  build (.br b)
  return some b

/-- Branches on a condition and lowers the first way. The result is the block behind the statement,
if there is one, and the block of the other way. -/
def branch (after : Option BlockRef) (cond : Lowering ValueRef) (body : Lowering Unit)
    (hasRest : Bool) : Lowering (Option BlockRef × BlockRef) := do
  let yes ← newBlock "if.then"
  let (after, no) ←
    if hasRest then do
      pure (after, ← newBlock "if.else")
    else
      match after with
      | some b => pure (some b, b)
      | none => do
        let b ← newBlock "if.end"
        pure (some b, b)
  let c ← cond
  build (.condBr c yes no)
  build (.setInsertPoint yes)
  body
  return (← merge after, no)

def follows : Core.Otherwise → Bool
  | .none => false
  | _ => true

def loop (cond : Lowering ValueRef) (body : Lowering Unit) : Lowering Unit := do
  let test ← newBlock "while.cond"
  let inner ← newBlock "while.body"
  let after ← newBlock "while.end"
  build (.br test)
  build (.setInsertPoint test)
  let c ← cond
  build (.condBr c inner after)
  build (.setInsertPoint inner)
  body
  if !(← build .isTerminated) then
    build (.br test)
  build (.setInsertPoint after)

/-- A store into a variable. A reference is followed. -/
def assign (v : Var) (x : Operand) : Lowering Unit := do
  let s ← storageOf v
  if v.reference then
    let p ← build (.load s.addr)
    let y ← x.as (.val v.type.type.removeReference)
    build (.store y p)
  else
    let y ← x.as v.type
    build (.store y s.addr)

def free (v : Var) : Lowering Unit := do
  declareHeap
  let s ← storageOf v
  if v.alloc == .heap && (← read).isCell v.type.type then
    build (.free s.addr)
  else
    let p ← readStorage s
    build (.free p)

def bindMembers (tuple : ValueRef) : List Var → Lowering Unit
  | [] => return ()
  | v :: vs => do
    bindValue v (← loadPath tuple v.path) none
    bindMembers tuple vs

mutual

def stmt (dv : Defaults) : Core.Stmt → Lowering Unit
  | .expr x => effect dv x
  | .declare v => bindDeclared v
  | .bind v init => bindLocal dv v init
  | .destructure vars value => do
    let tuple ← expr dv value
    bindMembers tuple vars
  | .assign v value => assign v (operand dv value)
  | .fieldAssign v path value => do
    let p ← fieldAddress v path
    let x ← (operand dv value).as (.ofScalar ((path.getLast?.map Core.Step.type).getD default))
    build (.store x p)
  | .indexAssign x i checked elem value => do
    let p ← elementAddress x checked (expr dv x) (expr dv i)
    let y ← (operand dv value).as (.ofScalar elem)
    build (.store y p)
  | .branch cond body rest => do
    let (after, no) ← branch none (expr dv cond) (stmts dv body) (follows rest)
    match ← otherwise dv after no rest with
    | some b => build (.setInsertPoint b)
    | none => pure ()
  | .loop cond body => loop (expr dv cond) (stmts dv body)
  | .retVoid => build .retVoid
  | .ret value result => ret dv value result
  | .free v => free v

def stmts (dv : Defaults) : List Core.Stmt → Lowering Unit
  | [] => return ()
  | s :: ss => do
    if !(← build .isTerminated) then
      stmt dv s
      stmts dv ss

/-- Lowers the other ways of a conditional statement, from the block where they start. -/
def otherwise (dv : Defaults) (after : Option BlockRef) (no : BlockRef) :
    Core.Otherwise → Lowering (Option BlockRef)
  | .none => return after
  | .elseIf cond body rest => do
    build (.setInsertPoint no)
    let (after, no) ← branch after (expr dv cond) (stmts dv body) (follows rest)
    otherwise dv after no rest
  | .final body => do
    build (.setInsertPoint no)
    stmts dv body
    merge after

end

/-! ## Methods -/

def bindParams (params : List ValueRef) : List Var → Lowering Unit
  | [] => return ()
  | v :: vs => do
    bindParam params v
    bindParams params vs

/-- Lowers the body of a method, if it belongs to this module. -/
def method (dv : Defaults) (m : Core.Method) : Lowering Unit := do
  match (← get).functions.find? fun d => d.method.same m.origin with
  | none => return ()
  | some d =>
    if d.isDefined then
      let fn := (← build .module).func d.func
      build (.setInsertPoint (fn.entry.getD 0))
      bindParams fn.params m.vars
      stmts dv m.body
      if !(← build .isTerminated) then
        if !m.origin.method.result.unnamed.isVoid then
          fail (.fallsOff m.origin.method.name)
        build .retVoid

end SsaCompiler.Lowering
