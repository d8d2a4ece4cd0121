import SsaCompiler.Lowering.Layout
import SsaCompiler.Target

/-!
# The state of lowering

Lowering builds the module of a unit. It keeps the functions of methods, the constant texts, and for
every variable that has been bound where its value is found.
-/

namespace SsaCompiler

open SsaCompiler.Core (Var)
open Ssa (ValueRef BlockRef FuncRef)

/-- Where the value of a variable is found. -/
structure Storage where
  /-- The address of its storage, or the value itself. -/
  addr : ValueRef
  direct : Bool
  /-- The number of elements, for arrays whose type does not tell it. -/
  length : Option ValueRef
  deriving DecidableEq, Repr

structure MethodFunc where
  method : MethodDef
  func : FuncRef
  /-- Whether its body belongs to this module. -/
  isDefined : Bool

structure LoweringState where
  /-- The module with the block that values are appended to. -/
  builder : Ssa.Builder
  /-- The functions of methods, in the order of their creation. -/
  functions : List MethodFunc := []
  texts : List (String × ValueRef) := []
  /-- The storage of bound variables, by their numbers, the latest first. -/
  storage : List (Nat × Storage) := []
  deriving Inhabited

/-- Steps of lowering in the view of a unit. -/
abbrev Lowering (α : Type) : Type := ReaderT Env (ExceptT Failure (StateM LoweringState)) α

namespace Lowering

variable {α : Type}

def fail (d : Defect) : Lowering α :=
  throw (.internal d)

def lift (x : Env → Except Failure α) : Lowering α := do
  match x (← read) with
  | .ok a => return a
  | .error e => throw e

def build (b : Ssa.Build α) : Lowering α := do
  let s ← get
  match b.run s.builder with
  | .ok (a, builder) =>
    set { s with builder := builder }
    return a
  | .error e => fail (.misuse e)

def newBlock (hint : String) : Lowering BlockRef := do
  let b ← build .currentBlock
  let m ← build .module
  build (.newBlock (m.block b).func hint)

/-- Builds elsewhere, and comes back to the current block. -/
def aside (x : Lowering α) : Lowering α := do
  let current := (← get).builder.current
  let a ← x
  modify fun s => { s with builder := { s.builder with current := current } }
  return a

/-! ## Constant texts and external functions -/

def text (s : String) : Lowering ValueRef := do
  let texts := (← get).texts
  match texts.lookup s with
  | some v => return v
  | none =>
    let v ← build (.globalString ("str." ++ toString texts.length) s)
    modify fun st => { st with texts := st.texts ++ [(s, v)] }
    return v

def bytePtr : Ssa.Ty := .pointer (.int 8)

def printf : Lowering FuncRef :=
  build (.declareFunction Target.printf.name (.func (.int 32) [bytePtr] true))

def exit : Lowering FuncRef :=
  build (.declareFunction Target.exit.name (.func .void [.int 32] false))

def declareHeap : Lowering Unit := do
  let _ ← build (.declareFunction Target.malloc.name (.func bytePtr [.int 64] false))
  let _ ← build (.declareFunction Target.free.name (.func .void [bytePtr] false))

/-! ## Methods -/

/-- The names of the parameters of a function, from parameter `i` on. -/
def paramNames : (i : Nat) → List Param → List String
  | _, [] => []
  | i, p :: ps =>
    (match p.name with
    | .word w => w
    | .group _ => "arg" ++ toString i) :: paramNames (i + 1) ps

def packageOf (env : Env) : Owner → Package
  | .own => env.own
  | .linked name =>
    ((env.imported ++ env.used).find? fun p => p.name == name).getD env.own

def signature (env : Env) (owner : Owner) (m : Method) : Except Failure Ssa.Ty := do
  let params ← m.paramTypes.mapM fun t => env.machineType (env.typeFrom owner t)
  let result := m.result.unnamed
  let result ← if result.isVoid then pure .void else env.machineType (env.typeFrom owner result)
  return .func result params false

/-- The function of a method, which is made when it is first needed. Methods of the own package get
a body, all others are declared. -/
def function (owner : Owner) (key : String) (f : MethodDef) : Lowering FuncRef := do
  match (← get).functions.find? fun d => d.method.same f with
  | some d => return d.func
  | none =>
    let env ← read
    let sig ← lift fun env => signature env owner f.method
    let name := (packageOf env owner).linkName key f
    let (r, isDefined) ←
      if Typing.isExternal f.method then
        pure (← build (.declareFunction f.method.name sig), false)
      else if owner == .own then
        pure (← build (.defineFunction name sig (paramNames 0 f.method.params)), true)
      else pure (← build (.declareFunction name sig), false)
    modify fun s => { s with functions := s.functions ++ [⟨f, r, isDefined⟩] }
    return r

/-! ## Variables -/

def storageOf (v : Var) : Lowering Storage := do
  match (← get).storage.lookup v.id with
  | some s => return s
  | none => fail (.unbound v.name)

def bind (v : Var) (s : Storage) : Lowering Unit := do
  if ((← get).storage.lookup v.id).isSome then
    fail (.boundTwice v.name)
  modify fun st => { st with storage := (v.id, s) :: st.storage }

def readStorage (s : Storage) : Lowering ValueRef :=
  if s.direct then return s.addr else build (.load s.addr)

def readVar (v : Var) : Lowering ValueRef := do
  readStorage (← storageOf v)

def readNumber (id : Nat) : Lowering ValueRef := do
  match (← get).storage.lookup id with
  | some s => readStorage s
  | none => fail .unboundSize

/-- The length of the array that a variable is, from the variable that holds it. -/
def readSize (v : Var) : Lowering ValueRef :=
  match v.dim with
  | some d => readNumber d
  | none => fail .missingSize

/-- Gives a variable its value: kept as it is, or put into a new slot. -/
def bindValue (v : Var) (x : ValueRef) (length : Option ValueRef) : Lowering Unit := do
  if (← read).isDirect v then
    bind v ⟨x, true, length⟩
  else
    let t ← lift (·.exprType v.type)
    let slot ← build (.alloca t v.name)
    build (.store x slot)
    bind v ⟨slot, false, length⟩

def loadPath (tuple : ValueRef) : List Nat → Lowering ValueRef
  | [] => return tuple
  | i :: path => do
    let p ← build (.fieldPtr tuple i)
    let x ← build (.load p)
    loadPath x path

end Lowering

end SsaCompiler
