import SsaCompiler.Ssa.Order

/-!
# Dominance

A block dominates another one if every path from the entry to the latter leads through the former.
The closest strict dominators form a tree. They are found by iteration over the blocks in reverse
post-order: the closest dominator of a block is the meeting point of the closest dominators of its
predecessors, as far as those are known. Blocks are numbered by their place in that order, so going
up the tree makes numbers smaller.

Blocks that cannot be reached from the entry have no dominators and are ignored as predecessors.
-/

namespace SsaCompiler.Ssa

/-- Known closest dominators, by numbers in reverse post-order. -/
abbrev DomTable := Array (Option Nat)

namespace DomTable

/-- Where the ways up the tree from two blocks meet. At most `fuel` steps are taken. -/
def meet (t : DomTable) : (fuel a b : Nat) → Nat
  | 0, a, _ => a
  | fuel + 1, a, b =>
    if a == b then a
    else if b < a then meet t fuel ((t.getD a none).getD 0) b
    else meet t fuel a ((t.getD b none).getD 0)

/-- One predecessor more for a meeting point. -/
def meetNext (t : DomTable) (next : Option Nat) (j : Nat) : Option Nat :=
  if (t.getD j none).isNone then next
  else
    match next with
    | none => some j
    | some n => some (meet t (j + n) j n)

/-- The meeting point of those predecessors whose dominators are known. -/
def meetAll (t : DomTable) (preds : List Nat) : Option Nat :=
  preds.foldl (meetNext t) none

def update (preds : Nat → List Nat) (t : DomTable) (i : Nat) : DomTable :=
  match meetAll t (preds i) with
  | none => t
  | some d => if t.getD i none == some d then t else t.setIfInBounds i (some d)

/-- Updates the entries of all blocks but the entry, in order. -/
def pass (preds : Nat → List Nat) (t : DomTable) : DomTable :=
  (List.range (t.size - 1)).foldl (fun t i => update preds t (i + 1)) t

/-- Passes until nothing changes, at most `fuel`. -/
def iterate (preds : Nat → List Nat) : Nat → DomTable → DomTable
  | 0, t => t
  | fuel + 1, t =>
    let next := pass preds t
    if next == t then t else iterate preds fuel next

/-- The table in which the iteration starts: only the first block is known. -/
def initial (n : Nat) : DomTable :=
  (Array.replicate n none).setIfInBounds 0 (some 0)

end DomTable

namespace Flow

/-- The closest dominators of the blocks in `order`, by places in it. -/
def domTable (g : Flow) (order : List BlockRef) : DomTable :=
  let preds : Array (List Nat) :=
    (order.map fun b => (g.preds b).filterMap fun p => order.findIdx? (· == p)).toArray
  let n := order.length
  DomTable.iterate (fun i => preds.getD i []) (n * n + 1) (DomTable.initial n)

/-- The closest strict dominator of each block that can be reached, the entry apart, in reverse
post-order. -/
def idoms (g : Flow) : List (BlockRef × BlockRef) :=
  let order := g.reversePostOrder
  let table := g.domTable order
  (List.range (order.length - 1)).map fun i =>
    (order.getD (i + 1) 0, order.getD ((table.getD (i + 1) none).getD 0) 0)

end Flow

namespace Module

variable (m : Module)

/-- Forgets the dominators of some blocks. -/
def forgetDom (bs : List BlockRef) : Module :=
  bs.foldl (fun m b => m.modifyBlock b fun x => { x with idom := none, dominees := [] }) m

/-- Records one closest dominator. -/
def record (x : BlockRef × BlockRef) : Module :=
  (m.modifyBlock x.1 fun y => { y with idom := some x.2 }).modifyBlock x.2 fun y =>
    { y with dominees := y.dominees ++ [x.1] }

/-- Records the closest dominators of the blocks of a function. -/
def computeDom (f : FuncRef) : Module :=
  let m := m.forgetDom (m.func f).blocks
  match (m.func f).entry with
  | none => m
  | some entry => (m.flow entry).idoms.foldl record m

/-- Whether `a` is met on the way up the recorded tree from `b`, in at most `fuel` steps. -/
def dominatesWithin (m : Module) (a : BlockRef) : Nat → BlockRef → Bool
  | 0, _ => false
  | fuel + 1, b =>
    b == a || (m.block b).idom.any (dominatesWithin m a fuel)

/-- Whether `a` dominates `b` by the recorded tree. Every block dominates itself. -/
def dominates (a b : BlockRef) : Bool :=
  m.dominatesWithin a (m.blocks.size + 1) b

/-- The blocks on the way up the recorded tree from `r`, up to `stop`, in at most `fuel` steps. -/
def runners (m : Module) (stop : Option BlockRef) : Nat → BlockRef → List BlockRef
  | 0, _ => []
  | fuel + 1, r =>
    if stop == some r then []
    else r :: (m.block r).idom.elim [] (runners m stop fuel)

/-- A dominance frontier for each block. -/
abbrev Frontier := List (BlockRef × BlockRef)

/-- Adds a pair of blocks unless it is there. -/
def Frontier.insert (df : Frontier) (x : BlockRef × BlockRef) : Frontier :=
  if df.contains x then df else df ++ [x]

/-- The pairs of blocks that the search for the frontier comes by. -/
def frontierPairs (f : FuncRef) : Frontier :=
  (m.reversePostOrder f).flatMap fun b =>
    let x := m.block b
    if x.preds.length < 2 then []
    else
      x.preds.flatMap fun p =>
        if some p != (m.func f).entry && (m.block p).idom.isNone then []
        else (m.runners x.idom (m.blocks.size + 1) p).map fun r => (r, b)

/-- The pairs of blocks `(r, b)` such that `b` is in the dominance frontier of `r`: `r` dominates a
predecessor of `b` that can be reached, but not `b` strictly. -/
def domFrontier (f : FuncRef) : Frontier :=
  (m.frontierPairs f).foldl Frontier.insert []

def Frontier.of (df : Frontier) (b : BlockRef) : List BlockRef :=
  df.filterMap fun (r, d) => if r == b then some d else none

end Module

end SsaCompiler.Ssa
