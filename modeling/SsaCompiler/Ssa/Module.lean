import SsaCompiler.Ssa.Op
import SsaCompiler.Ssa.Ty

/-!
# Modules

A module holds functions in static single assignment form. Values, blocks and functions are stored
in tables and referred to by their place in the table, so that two values are the same exactly when
their references are. Constants are values too: two constants of equal content are still different
values.

A value counts how often it is used as an argument or as a control value. All updates here keep the
count in step with what they change.
-/

namespace SsaCompiler.Ssa

/-- A value of a module, by its place in the table. -/
abbrev ValueRef := Nat

/-- A block of a module, by its place in the table. -/
abbrev BlockRef := Nat

/-- A function of a module, by its place in the table. -/
abbrev FuncRef := Nat

/-- What a value refers to beside its arguments. -/
inductive Aux where
  | none
  | name (s : String)
  | callee (f : FuncRef)
  /-- A global object, by its place in the table. -/
  | global (g : Nat)
  deriving DecidableEq, Repr

structure Value where
  /-- The number of the value in its function; -1 for values outside of blocks. -/
  number : Int := -1
  op : Op
  type : Ty
  args : List (Option ValueRef) := []
  block : Option BlockRef := none
  auxInt : Int := 0
  /-- The bits of a floating-point constant. -/
  auxFloat : UInt64 := 0
  aux : Aux := .none
  uses : Int := 0
  deriving DecidableEq, Repr, Inhabited

/-- How a block ends. -/
inductive BlockKind where
  | invalid
  /-- A jump to the only successor; the block is still open as long as there is none. -/
  | plain
  | branch
  /-- A return of the control value, if there is one. -/
  | ret
  | unknown
  deriving DecidableEq, Repr

namespace BlockKind

def ofCode (n : Nat) : BlockKind :=
  ([.invalid, .plain, .branch, .ret][n]?).getD .unknown

def name : BlockKind → String
  | .invalid => "invalid"
  | .plain => "plain"
  | .branch => "if"
  | .ret => "ret"
  | .unknown => "unknown"

end BlockKind

structure Block where
  number : Nat
  kind : BlockKind := .plain
  hint : String := ""
  controls : List (Option ValueRef) := []
  succs : List BlockRef := []
  preds : List BlockRef := []
  values : List ValueRef := []
  func : FuncRef
  /-- The closest block through which every path to it leads. -/
  idom : Option BlockRef := none
  dominees : List BlockRef := []
  deriving DecidableEq, Repr, Inhabited

def Block.isTerminated (b : Block) : Bool :=
  b.kind != .plain || !b.succs.isEmpty

def Block.name (b : Block) : String :=
  "b" ++ toString b.number

structure Func where
  name : String
  sig : Ty
  /-- One value per parameter, in the entry block. -/
  params : List ValueRef := []
  blocks : List BlockRef := []
  /-- The block where it starts; none if the function is only declared. -/
  entry : Option BlockRef := none
  nextValue : Nat := 0
  nextBlock : Nat := 0
  deriving DecidableEq, Repr, Inhabited

def Func.isDeclaration (f : Func) : Bool :=
  f.entry.isNone

/-- A constant text. -/
structure Global where
  name : String
  /-- The text without the final zero byte. -/
  data : String
  value : ValueRef
  deriving DecidableEq, Repr, Inhabited

structure Module where
  name : String
  funcs : Array Func := #[]
  globals : Array Global := #[]
  values : Array Value := #[]
  blocks : Array Block := #[]
  deriving DecidableEq, Repr, Inhabited

namespace Module

variable (m : Module) (v : ValueRef) (f : FuncRef)

/-! ## Reading -/

def value : Value :=
  m.values.getD v default

def block (b : BlockRef) : Block :=
  m.blocks.getD b default

def func : Func :=
  m.funcs.getD f default

def find? (name : String) : Option FuncRef :=
  m.funcs.findIdx? fun f => f.name == name

def typeOf : Ty :=
  (m.value v).type

def numValues : Nat :=
  (m.func f).blocks.foldl (fun n b => n + (m.block b).values.length) 0

/-! ## Updating single entries -/

def modifyValue (f : Value → Value) : Module :=
  { m with values := m.values.modify v f }

def modifyBlock (b : BlockRef) (f : Block → Block) : Module :=
  { m with blocks := m.blocks.modify b f }

def modifyFunc (g : Func → Func) : Module :=
  { m with funcs := m.funcs.modify f g }

def addUse : Module :=
  m.modifyValue v fun x => { x with uses := x.uses + 1 }

def dropUse : Module :=
  m.modifyValue v fun x => { x with uses := x.uses - 1 }

def addUses (vs : List (Option ValueRef)) : Module :=
  vs.foldl (fun m v => v.elim m m.addUse) m

def dropUses (vs : List (Option ValueRef)) : Module :=
  vs.foldl (fun m v => v.elim m m.dropUse) m

/-! ## New entries -/

def addConst (v : Value) : ValueRef × Module :=
  (m.values.size, { m with values := m.values.push v })

def constInt (m : Module) (t : Ty) (n : Int) : ValueRef × Module :=
  m.addConst { op := .constInt, type := t, auxInt := n }

/-- Adds a floating-point constant, given by its bits. -/
def constFloat (m : Module) (t : Ty) (bits : UInt64) : ValueRef × Module :=
  m.addConst { op := .constFloat, type := t, auxFloat := bits }

def constNull (m : Module) (t : Ty) : ValueRef × Module :=
  m.addConst { op := .constNull, type := t }

def zeroValue (t : Ty) : Value :=
  match t with
  | .float | .double => { op := .constFloat, type := t }
  | .pointer _ => { op := .constNull, type := t }
  | _ => { op := .constInt, type := t }

/-- Adds a value to a block, behind its values or in front of them. -/
def newValue (b : BlockRef) (front : Bool) (v : Value) : ValueRef × Module :=
  let r := m.values.size
  let f := (m.block b).func
  let v := { v with number := (m.func f).nextValue, block := some b }
  let m := { m with values := m.values.push v }
  let m := m.modifyFunc f fun fn => { fn with nextValue := fn.nextValue + 1 }
  let m := m.addUses v.args
  (r, m.modifyBlock b fun blk =>
    { blk with values := if front then r :: blk.values else blk.values ++ [r] })

def newBlock (hint : String) : BlockRef × Module :=
  let r := m.blocks.size
  let b : Block := { number := (m.func f).nextBlock, hint := hint, func := f }
  let m := { m with blocks := m.blocks.push b }
  (r, m.modifyFunc f fun fn =>
    { fn with nextBlock := fn.nextBlock + 1, blocks := fn.blocks ++ [r] })

/-- Adds the parameters of a function to its entry block, from parameter `i` on. -/
def addParams (m : Module) (f : FuncRef) (entry : BlockRef) :
    List Ty → List String → Nat → Module
  | [], _, _ => m
  | t :: ts, names, i =>
    let aux := names.head?.elim Aux.none .name
    let (v, m) := m.newValue entry false { op := .arg, type := t, auxInt := i, aux := aux }
    let m := m.modifyFunc f fun fn => { fn with params := fn.params ++ [v] }
    addParams m f entry ts names.tail (i + 1)

/-- Gives a declared function an entry block and parameters. -/
def define (paramNames : List String) : Module :=
  let (entry, m) := m.newBlock f "entry"
  let m := m.modifyFunc f fun fn => { fn with entry := some entry }
  m.addParams f entry (m.func f).sig.params paramNames 0

/-- The function of a given name, declared with a type if there is none. -/
def declareFunction (name : String) (sig : Ty) : FuncRef × Module :=
  match m.find? name with
  | some f => (f, m)
  | none => (m.funcs.size, { m with funcs := m.funcs.push { name := name, sig := sig } })

/-- Defines a function; none if it is already defined. A function that has been declared keeps its
type. -/
def defineFunction? (name : String) (sig : Ty) (paramNames : List String) :
    Option (FuncRef × Module) :=
  let (f, m) := m.declareFunction name sig
  if (m.func f).isDeclaration then some (f, m.define f paramNames) else none

/-- The address of the constant text of a given name, which is made if there is none. -/
def globalString (name data : String) : ValueRef × Module :=
  match m.globals.find? fun g => g.name == name with
  | some g => (g.value, m)
  | none =>
    let (v, m) := m.addConst
      { op := .global, type := .pointer (.int 8), aux := .global m.globals.size }
    (v, { m with globals := m.globals.push ⟨name, data, v⟩ })

/-! ## Arguments and edges -/

def setArgs (args : List (Option ValueRef)) : Module :=
  let m := m.dropUses (m.value v).args
  let m := m.modifyValue v fun x => { x with args := args }
  m.addUses args

def replaceArg (i : Nat) (new : ValueRef) : Module :=
  let m := m.dropUses [((m.value v).args.getD i none)]
  let m := m.modifyValue v fun x => { x with args := x.args.set i (some new) }
  m.addUse new

/-- Replaces the uses of one value by another one in the arguments of `v`. -/
def replaceInArgs (old new : ValueRef) (v : ValueRef) : Module :=
  let n := ((m.value v).args.filter (· == some old)).length
  if n == 0 then m
  else
    let m := m.modifyValue v fun x =>
      { x with args := x.args.map fun a => if a == some old then some new else a }
    let m := m.modifyValue old fun x => { x with uses := x.uses - n }
    m.modifyValue new fun x => { x with uses := x.uses + n }

/-- Replaces the uses of one value by another one in the controls of `b`. -/
def replaceInControls (old new : ValueRef) (b : BlockRef) : Module :=
  let n := ((m.block b).controls.filter (· == some old)).length
  if n == 0 then m
  else
    let m := m.modifyBlock b fun x =>
      { x with controls := x.controls.map fun a => if a == some old then some new else a }
    let m := m.modifyValue old fun x => { x with uses := x.uses - n }
    m.modifyValue new fun x => { x with uses := x.uses + n }

def replaceUses (old new : ValueRef) : Module :=
  (m.func f).blocks.foldl (fun m b =>
    let m := (m.block b).values.foldl (replaceInArgs · old new ·) m
    m.replaceInControls old new b) m

def addSucc (b s : BlockRef) : Module :=
  let m := m.modifyBlock b fun x => { x with succs := x.succs ++ [s] }
  m.modifyBlock s fun x => { x with preds := x.preds ++ [b] }

def removePhiArg (i : Nat) (v : ValueRef) : Module :=
  let x := m.value v
  if x.op == .phi && i < x.args.length then
    let m := m.dropUses [(x.args.getD i none)]
    m.modifyValue v fun x => { x with args := x.args.eraseIdx i }
  else m

/-- Removes the first edge from `p` to `b` on the side of `b`, with the phi arguments that belong to
it. -/
def removePred (b p : BlockRef) : Module :=
  match (m.block b).preds.findIdx? (· == p) with
  | none => m
  | some i =>
    let m := m.modifyBlock b fun x => { x with preds := x.preds.eraseIdx i }
    (m.block b).values.foldl (fun m v => m.removePhiArg i v) m

def setControl (b : BlockRef) (v : Option ValueRef) : Module :=
  let m := m.modifyBlock b fun x => { x with controls := [v] }
  m.addUses [v]

/-- Drops some of the values of a list, together with their uses of others, as long as `isDead` says so
when it is their turn; gives the values kept. -/
def dropValues (isDead : Value → Bool) : Module → List ValueRef → List ValueRef × Module
  | m, [] => ([], m)
  | m, v :: vs =>
    if isDead (m.value v) then dropValues isDead (m.dropUses (m.value v).args) vs
    else
      let rest := dropValues isDead m vs
      (v :: rest.1, rest.2)

def sweepBlock (isDead : Value → Bool) (m : Module) (b : BlockRef) : Module :=
  let kept := dropValues isDead m (m.block b).values
  kept.2.modifyBlock b fun x => { x with values := kept.1 }

end Module

end SsaCompiler.Ssa
