import SsaCompiler.Ssa.Order

/-!
# Dead code

Two passes that only remove: blocks that cannot be reached from the entry, and values that nothing
uses and that have no effect.
-/

namespace SsaCompiler.Ssa.Module

/-- Takes a block that cannot be reached out of the predecessors of its successors and gives up its
uses of values. -/
def detachBlock (m : Module) (b : BlockRef) : Module :=
  let m := (m.block b).succs.foldl (fun m s => m.removePred s b) m
  let m := (m.block b).values.foldl (fun m v => m.dropUses (m.value v).args) m
  m.dropUses (m.block b).controls

/-- Removes the blocks of a function that cannot be reached. -/
def removeUnreachable (m : Module) (f : FuncRef) : Module :=
  let order := m.reversePostOrder f
  let blocks := (m.func f).blocks
  if order.length == blocks.length then m
  else
    let dead := blocks.filter fun b => !order.contains b
    let m := dead.foldl detachBlock m
    m.modifyFunc f fun fn => { fn with blocks := blocks.filter order.contains }

/-- Whether a value can be dropped. Parameters stay, so that the function keeps its type. -/
def isDead (x : Value) : Bool :=
  x.uses == 0 && x.op.isPure && x.op != .arg

/-- Sweeps all blocks of a function until nothing is dropped, at most `fuel` times. -/
def sweepUntilStable (f : FuncRef) : Nat → Module → Module
  | 0, m => m
  | fuel + 1, m =>
    let next := (m.func f).blocks.foldl (sweepBlock isDead) m
    if next.numValues f == m.numValues f then next else sweepUntilStable f fuel next

/-- Removes the values of a function that nothing uses, until none is left. Each round but the last
one drops a value. -/
def removeDeadValues (m : Module) (f : FuncRef) : Module :=
  sweepUntilStable f (m.numValues f + 1) m

end SsaCompiler.Ssa.Module
