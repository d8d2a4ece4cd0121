import SsaCompiler.Ssa.Module

/-!
# Reverse post-order

The blocks that can be reached from the entry, in the reverse of the order in which a depth-first
search leaves them. The search keeps its path as a list of blocks, each with the successors that are
still to be looked at. Every step looks along one edge or leaves one block, and each block but the
entry was entered along an edge of its own, so the edges of the graph bound it.
-/

namespace SsaCompiler.Ssa

/-- A control flow graph. -/
structure Flow where
  entry : BlockRef
  succs : BlockRef → List BlockRef
  preds : BlockRef → List BlockRef
  bound : Nat

namespace Flow

/-- The state of a depth-first search. -/
structure Search where
  /-- The path from the current block to the entry, with the successors still to be looked at. -/
  path : List (BlockRef × List BlockRef)
  seen : List BlockRef
  /-- The blocks that have been left, the latest first. -/
  done : List BlockRef
  deriving Repr

/-- One step of the search: looks at a successor or leaves a block. -/
def Search.step (g : Flow) (s : Search) : Search :=
  match s.path with
  | [] => s
  | (b, []) :: rest => { s with path := rest, done := b :: s.done }
  | (b, t :: ts) :: rest =>
    if s.seen.contains t then { s with path := (b, ts) :: rest }
    else { s with path := (t, g.succs t) :: (b, ts) :: rest, seen := t :: s.seen }

/-- At most `n` steps of the search. -/
def Search.run (g : Flow) : Nat → Search → Search
  | 0, s => s
  | n + 1, s => if s.path.isEmpty then s else Search.run g n (s.step g)

/-- The blocks that can be reached from the entry, in reverse post-order. -/
def reversePostOrder (g : Flow) : List BlockRef :=
  (Search.run g g.bound ⟨[(g.entry, g.succs g.entry)], [g.entry], []⟩).done

end Flow

namespace Module

/-- The control flow graph of a function with a body. -/
def flow (m : Module) (entry : BlockRef) : Flow where
  entry := entry
  succs b := (m.block b).succs
  preds b := (m.block b).preds
  bound := 2 * (m.blocks.toList.flatMap Block.succs).length + 1

/-- The blocks of a function that can be reached from its entry, in reverse post-order. -/
def reversePostOrder (m : Module) (f : FuncRef) : List BlockRef :=
  match (m.func f).entry with
  | some entry => (m.flow entry).reversePostOrder
  | none => []

end Module

end SsaCompiler.Ssa
