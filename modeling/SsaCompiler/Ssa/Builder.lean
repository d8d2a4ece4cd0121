import SsaCompiler.Ssa.Layout
import SsaCompiler.Ssa.Module

/-!
# Building functions

A builder appends values to the end of a block and gives blocks their ends. Slots on the stack that
hold one object go to the entry block of the function, wherever the builder stands, so that their
addresses are known on every path.

Misuse of a builder is an error: there is no block to append to, the block has already an end, or a
field does not exist.
-/

namespace SsaCompiler.Ssa

inductive Misuse where
  | noInsertPoint
  | insertTerminated (func block : String)
  | terminatedTwice (func block : String)
  | definedTwice (name : String)
  /-- The address of a field is taken that the object does not have. -/
  | noField (field count : Nat)
  deriving DecidableEq, Repr

def Misuse.message : Misuse → String
  | .noInsertPoint => "ssa: builder has no insert point"
  | .insertTerminated f b => "ssa: " ++ f ++ " " ++ b ++ ": insert into terminated block"
  | .terminatedTwice f b => "ssa: " ++ f ++ " " ++ b ++ ": block terminated twice"
  | .definedTwice name => "ssa: function " ++ name ++ " defined twice"
  | .noField field count =>
    "runtime error: index out of range [" ++ toString field ++ "] with length " ++ toString count

/-- A module under construction. -/
structure Builder where
  module : Module
  current : Option BlockRef := none
  deriving Repr, Inhabited

abbrev Build (α : Type) : Type := StateT Builder (Except Misuse) α

namespace Build

def module : Build Module :=
  return (← get).module

def modifyModule (f : Module → Module) : Build Unit :=
  modify fun b => { b with module := f b.module }

def making {α : Type} (f : Module → α × Module) : Build α :=
  modifyGet fun b =>
    let (x, m) := f b.module
    (x, { b with module := m })

def typeOf (v : ValueRef) : Build Ty :=
  return (← module).typeOf v

def currentBlock : Build BlockRef := do
  match (← get).current with
  | some b => return b
  | none => throw .noInsertPoint

def setInsertPoint (b : BlockRef) : Build Unit :=
  modify fun s => { s with current := some b }

/-- Whether the current block has an end. -/
def isTerminated : Build Bool := do
  let b ← currentBlock
  return ((← module).block b).isTerminated

/-- Appends a value to the current block. -/
def emit (v : Value) : Build ValueRef := do
  let b ← currentBlock
  let m ← module
  let blk := m.block b
  if blk.isTerminated then
    throw (.insertTerminated (m.func blk.func).name blk.name)
  making (·.newValue b false v)

def op (o : Op) (t : Ty) (args : List ValueRef) : Build ValueRef :=
  emit { op := o, type := t, args := args.map some }

/-! ## Constants, functions and blocks -/

def constInt (t : Ty) (n : Int) : Build ValueRef :=
  making (·.constInt t n)

def constFloat (t : Ty) (bits : UInt64) : Build ValueRef :=
  making (·.constFloat t bits)

def constNull (t : Ty) : Build ValueRef :=
  making (·.constNull t)

def globalString (name data : String) : Build ValueRef :=
  making (·.globalString name data)

def declareFunction (name : String) (sig : Ty) : Build FuncRef :=
  making (·.declareFunction name sig)

def defineFunction (name : String) (sig : Ty) (paramNames : List String) : Build FuncRef := do
  match (← module).defineFunction? name sig paramNames with
  | some (f, m) =>
    modify fun b => { b with module := m }
    return f
  | none => throw (.definedTwice name)

def newBlock (f : FuncRef) (hint : String) : Build BlockRef :=
  making (·.newBlock f hint)

/-! ## Memory -/

/-- A slot on the stack for one object. -/
def alloca (t : Ty) (name : String) : Build ValueRef := do
  let b ← currentBlock
  let m ← module
  let entry := (m.func (m.block b).func).entry.getD b
  making (·.newValue entry false { op := .alloca, type := .pointer t, aux := .name name })

/-- Slots on the stack for as many objects as a value says. -/
def allocaMany (t : Ty) (count : ValueRef) (name : String) : Build ValueRef :=
  emit { op := .alloca, type := .pointer t, args := [some count], aux := .name name }

def malloc (t : Ty) : Build ValueRef :=
  emit { op := .malloc, type := .pointer t, auxInt := t.size }

def free (p : ValueRef) : Build Unit := do
  let _ ← op .free .void [p]

def load (p : ValueRef) : Build ValueRef := do
  op .load ((← typeOf p).elem?.getD .void) [p]

def store (x p : ValueRef) : Build Unit := do
  let _ ← op .store .void [p, x]

/-- The address of an element of an array, or of an element behind the first one. -/
def elementPtr (p index : ValueRef) : Build ValueRef := do
  let elem := (← typeOf p).elem?.getD .void
  let elem :=
    match elem with
    | .array _ t => t
    | t => t
  op .elemPtr (.pointer elem) [p, index]

def fieldPtr (p : ValueRef) (field : Nat) : Build ValueRef := do
  let fields := ((← typeOf p).elem?.getD .void).fields
  match fields[field]? with
  | some t => emit { op := .fieldPtr, type := .pointer t, args := [some p], auxInt := field }
  | none => throw (.noField field fields.length)

/-! ## Operations -/

def convert (o : Op) (x : ValueRef) (t : Ty) : Build ValueRef :=
  op o t [x]

/-- Cuts an integer off, extends it, or leaves it as it is. Truth values are extended by zeros. -/
def intCast (x : ValueRef) (t : Ty) : Build ValueRef := do
  let source := (← typeOf x).bits
  if t.bits < source then convert .trunc x t
  else if source == 1 then convert .zext x t
  else if source < t.bits then convert .sext x t
  else return x

def unary (o : Op) (x : ValueRef) : Build ValueRef := do
  op o (← typeOf x) [x]

def binary (o : Op) (x y : ValueRef) : Build ValueRef := do
  op o (← typeOf x) [x, y]

def icmp (p : IntPredicate) (x y : ValueRef) : Build ValueRef :=
  emit { op := .icmp, type := .int 1, args := [some x, some y], auxInt := p.code }

def fcmp (p : FloatPredicate) (x y : ValueRef) : Build ValueRef :=
  emit { op := .fcmp, type := .int 1, args := [some x, some y], auxInt := p.code }

def select (cond x y : ValueRef) : Build ValueRef := do
  op .select (← typeOf x) [cond, x, y]

def call (f : FuncRef) (args : List ValueRef) : Build ValueRef := do
  let sig := ((← module).func f).sig
  emit { op := .call, type := sig.result, args := args.map some, aux := .callee f }

/-! ## Ends of blocks -/

/-- Gives the current block an end. -/
def terminate (kind : BlockKind) : Build BlockRef := do
  let b ← currentBlock
  let m ← module
  let blk := m.block b
  if blk.isTerminated then
    throw (.terminatedTwice (m.func blk.func).name blk.name)
  modifyModule (·.modifyBlock b fun x => { x with kind := kind })
  return b

def br (dest : BlockRef) : Build Unit := do
  let b ← terminate .plain
  modifyModule (·.addSucc b dest)

def condBr (cond : ValueRef) (yes no : BlockRef) : Build Unit := do
  let b ← terminate .branch
  modifyModule fun m => ((m.setControl b (some cond)).addSucc b yes).addSucc b no

def ret (x : Option ValueRef) : Build Unit := do
  let b ← terminate .ret
  modifyModule (·.setControl b x)

def retVoid : Build Unit := do
  let _ ← terminate .ret

end Build

end SsaCompiler.Ssa
