import SsaCompiler.Ssa.Dominance

/-!
# Promotion of stack slots

Slots on the stack that hold one register value and are only read and written become values. Where
several values of a slot meet, a phi value is placed: at the iterated dominance frontier of the
blocks that write the slot. Then the reads are replaced by the values that reach them, in a walk
down the dominator tree, and phi values that always have one and the same value are folded.

A slot that is read before it is written holds zero.
-/

namespace SsaCompiler.Ssa.Module

variable (m : Module) (f : FuncRef)

/-! ## Which slots -/

def isSlot (x : Value) : Bool :=
  x.op == .alloca && x.args.isEmpty && x.type.elem?.any Ty.isScalar

/-- The values that a value uses other than as the address of a read or a write. -/
def escaping (x : Value) : List ValueRef :=
  match x.op with
  | .load | .store => (x.args.drop 1).filterMap id
  | _ => x.args.filterMap id

/-- The slots of a function whose address is only used to read and write. -/
def promotable : List ValueRef :=
  let blocks := (m.func f).blocks.map m.block
  let escaped := blocks.flatMap fun b =>
    (b.values.flatMap fun v => escaping (m.value v)) ++ b.controls.filterMap id
  let marks := escaped.foldl (fun (a : Array Bool) v => a.setIfInBounds v true)
    (Array.replicate m.values.size false)
  (blocks.flatMap Block.values).filter fun v => isSlot (m.value v) && !marks.getD v false

def writes (x : Value) (slot : ValueRef) : Bool :=
  x.op == .store && x.args.head? == some (some slot)

def defBlocks (slot : ValueRef) : List BlockRef :=
  (m.func f).blocks.filter fun b => (m.block b).values.any fun v => writes (m.value v) slot

/-! ## Where phi values go -/

/-- The state of the search for the iterated frontier. -/
structure Spread where
  /-- The blocks whose frontier is still to be added, the next one first. -/
  work : List BlockRef
  queued : List BlockRef
  found : List BlockRef
  deriving Repr

def Spread.add (s : Spread) (d : BlockRef) : Spread :=
  if s.found.contains d then s
  else
    let s := { s with found := s.found ++ [d] }
    if s.queued.contains d then s
    else { s with work := d :: s.work, queued := d :: s.queued }

/-- Takes blocks off the list and adds their frontiers, at most `fuel` times. -/
def Spread.run (df : Frontier) : Nat → Spread → Spread
  | 0, s => s
  | fuel + 1, s =>
    match s.work with
    | [] => s
    | b :: rest => Spread.run df fuel ((df.of b).foldl Spread.add { s with work := rest })

def iteratedFrontier (df : Frontier) (defs : List BlockRef) : List BlockRef :=
  (Spread.run df (defs.length + df.length + 1) ⟨defs.reverse, defs, []⟩).found

/-- The phi values placed for slots: block, slot and value. -/
abbrev Phis := List (BlockRef × ValueRef × ValueRef)

def Phis.of (phis : Phis) (b : BlockRef) : List (ValueRef × ValueRef) :=
  phis.filterMap fun (c, slot, phi) => if c == b then some (slot, phi) else none

/-- Places an empty phi value for a slot at the front of a block. -/
def placePhi (slot : ValueRef) : Module × Phis → BlockRef → Module × Phis
  | (m, phis), b =>
    let t := (m.typeOf slot).elem?.getD .void
    let args := (m.block b).preds.map fun _ => none
    let (phi, m) := m.newValue b true { op := .phi, type := t, args := args }
    (m, phis ++ [(b, slot, phi)])

def placePhis (slots : List ValueRef) : Module × Phis :=
  let df := m.domFrontier f
  let places := slots.map fun slot => (slot, iteratedFrontier df (m.defBlocks f slot))
  places.foldl (fun s (slot, blocks) => blocks.foldl (placePhi slot) s) (m, [])

/-! ## Renaming -/

/-- The value that each slot holds, the latest first. -/
abbrev Holds := List (ValueRef × ValueRef)

def Holds.of (h : Holds) (slot : ValueRef) : Option ValueRef :=
  h.lookup slot

structure Renaming where
  module : Module
  /-- The reads and writes that have been replaced. -/
  dead : List ValueRef

/-- Goes over one value: a read of a slot is replaced by what the slot holds, a write changes it. -/
def renameValue : Renaming × Holds → ValueRef → Renaming × Holds
  | (s, h), v =>
    let x := s.module.value v
    match x.op, x.args with
    | .load, some slot :: _ =>
      match h.of slot with
      | some held =>
        ({ module := s.module.replaceUses f v held, dead := v :: s.dead }, h)
      | none => (s, h)
    | .store, some slot :: some new :: _ =>
      match h.of slot with
      | some _ => ({ s with dead := v :: s.dead }, (slot, new) :: h)
      | none => (s, h)
    | _, _ => (s, h)

def fillPhi (i : Nat) (phi held : ValueRef) : Module :=
  let m := m.modifyValue phi fun x => { x with args := x.args.set i (some held) }
  m.addUse held

/-- Sets the arguments of the phi values of a successor that belong to the edge from `b`. -/
def fillSuccessor (phis : Phis) (h : Holds) (b : BlockRef) (m : Module) (s : BlockRef) : Module :=
  match (m.block s).preds.findIdx? (· == b) with
  | none => m
  | some i =>
    (phis.of s).foldl (fun m (slot, phi) =>
      match h.of slot with
      | some held => m.fillPhi i phi held
      | none => m) m

/-- Renames in one block: its phi values, its values in order, and the phi values behind it. -/
def renameBlock (phis : Phis) (s : Renaming) (h : Holds) (b : BlockRef) :
    Renaming × Holds :=
  let h := (phis.of b) ++ h
  let (s, h) := (s.module.block b).values.foldl (renameValue f) (s, h)
  let m := (s.module.block b).succs.foldl (fillSuccessor phis h b) s.module
  ({ s with module := m }, h)

/-- Renames in the blocks of a list, each followed by the blocks that it dominates. Every block
comes with what the slots hold before it. At most `fuel` blocks are visited. -/
def renameAll (f : FuncRef) (phis : Phis) : Nat → Renaming → List (BlockRef × Holds) → Renaming
  | 0, s, _ => s
  | _ + 1, s, [] => s
  | fuel + 1, s, (b, h) :: rest =>
    let (s, h) := renameBlock f phis s h b
    let children := (s.module.block b).dominees.map fun c => (c, h)
    renameAll f phis fuel s (children ++ rest)

/-! ## Removing what is left -/

/-- Removes the given reads and writes from a block. -/
def dropReplaced (dead : Array Bool) (m : Module) (b : BlockRef) : Module :=
  let values := (m.block b).values
  let isDead (v : ValueRef) : Bool := dead.getD v false
  let m := (values.filter isDead).foldl (fun m v => m.dropUses (m.value v).args) m
  m.modifyBlock b fun x => { x with values := values.filter fun v => !isDead v }

/-- Removes those of the slots that nothing uses from a block. -/
def dropSlots (slots : List ValueRef) (m : Module) (b : BlockRef) : Module :=
  let unused (v : ValueRef) : Bool := slots.contains v && (m.value v).uses == 0
  m.modifyBlock b fun x => { x with values := x.values.filter fun v => !unused v }

/-- The only value that a phi value can have, if there is only one beside itself. -/
def trivialPhi? (v : ValueRef) (x : Value) : Option ValueRef :=
  match (x.args.filterMap id).filter (· != v) with
  | [] => none
  | a :: as => if as.all (· == a) then some a else none

/-- Replaces a phi value that can only have one value. The flag says whether there was one so
far. -/
def foldPhi : Module × Bool → ValueRef → Module × Bool
  | (m, changed), v =>
    let x := m.value v
    if x.op != .phi then (m, changed)
    else
      match trivialPhi? v x with
      | some a => (m.replaceUses f v a, true)
      | none => (m, changed)

/-- Whether a value is a phi value that nothing uses. -/
def isDeadPhi (x : Value) : Bool :=
  x.op == .phi && x.uses == 0

/-- Folds phi values until there is none to fold, at most `fuel` times. -/
def foldPhis (f : FuncRef) : Nat → Module → Module
  | 0, m => m
  | fuel + 1, m =>
    let blocks := (m.func f).blocks
    let (m, changed) :=
      blocks.foldl (fun s b => (s.1.block b).values.foldl (foldPhi f) s) (m, false)
    if changed then foldPhis f fuel (blocks.foldl (sweepBlock isDeadPhi) m) else m

/-! ## The pass -/

/-- The value of each slot before anything is written: a fresh zero. -/
def zeroSlots (slots : List ValueRef) : Holds × Module :=
  slots.foldr (fun slot (h, m) =>
    let (z, m) := m.addConst (zeroValue ((m.typeOf slot).elem?.getD .void))
    ((slot, z) :: h, m)) ([], m)

/-- Promotes the slots of a function. Blocks that cannot be reached must have been removed. -/
def promoteSlots : Module :=
  let m := m.computeDom f
  let slots := m.promotable f
  if slots.isEmpty then m
  else
    let (m, phis) := m.placePhis f slots
    let (h, m) := m.zeroSlots slots
    let start := (m.func f).entry.toList.map fun b => (b, h)
    let s := renameAll f phis (m.blocks.size + 1) { module := m, dead := [] } start
    let dead := s.dead.foldl (fun (a : Array Bool) v => a.setIfInBounds v true)
      (Array.replicate s.module.values.size false)
    let blocks := (s.module.func f).blocks
    let m := blocks.foldl (dropReplaced dead) s.module
    let m := blocks.foldl (dropSlots slots) m
    foldPhis f (m.values.size + 1) m

end SsaCompiler.Ssa.Module
