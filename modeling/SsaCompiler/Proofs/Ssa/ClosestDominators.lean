import Mathlib.Data.List.Nodup
import SsaCompiler.Proofs.Ssa.DominatorTable
import SsaCompiler.Proofs.Ssa.ReversePostOrder

/-!
# The closest dominators

The table of dominators speaks of numbers in reverse post-order. Here it is carried over to the blocks
of a flow graph of any shape: walks over numbers are walks over blocks (`dominates_iff_dom`), so what
is found for a block is its closest strict dominator, and only blocks that can be reached have one
(`mem_idoms_iff`). All that is asked of the graph is that both ends of an edge know about it.
-/

namespace SsaCompiler.Ssa.Flow

open List

/-- The bound of the graph counts its edges, and those out of and into blocks that can be reached are
known at both ends. -/
structure Coherent (g : Flow) : Prop where
  bounded : g.Bounded
  succ : ∀ b c, g.Reachable b → c ∈ g.succs b → b ∈ g.preds c
  pred : ∀ b p, g.Reachable b → p ∈ g.preds b → b ∈ g.succs p

/-- The numbers of the predecessors of a block, itself given by its number. -/
def predNumbers (g : Flow) (order : List BlockRef) (i : Nat) : List Nat :=
  (order.map fun b => (g.preds b).filterMap fun p => order.findIdx? (· == p)).toArray.getD i []

variable {g : Flow} {order : List BlockRef} {a b c d i j : Nat}

theorem domTable_eq (g : Flow) (order : List BlockRef) :
    g.domTable order = DomTable.iterate (g.predNumbers order)
      (order.length * order.length + 1) (DomTable.initial order.length) :=
  rfl

/-- The passes have come to a standstill, and so has every search for a meeting point. -/
structure Settles (g : Flow) : Prop where
  passes : DomTable.pass (g.predNumbers g.reversePostOrder) (g.domTable g.reversePostOrder) =
    g.domTable g.reversePostOrder
  meets : ∀ (p k fuel a b : Nat) (t : DomTable), k < g.reversePostOrder.length →
    t = DomTable.passTo (g.predNumbers g.reversePostOrder)
      ((DomTable.pass (g.predNumbers g.reversePostOrder))^[p]
        (DomTable.initial g.reversePostOrder.length)) k →
    DomTable.Known t a → DomTable.Known t b → a + b ≤ fuel →
    DomTable.meet t fuel a b = DomTable.meet t (a + b) a b

theorem mem_predNumbers :
    j ∈ g.predNumbers order i ↔
      ∃ b, order[i]? = some b ∧ ∃ p ∈ g.preds b, order.findIdx? (· == p) = some j := by
  rw [predNumbers, Array.getD_eq_getD_getElem?, List.getElem?_toArray, List.getElem?_map]
  cases horder : order[i]? with
  | none => simp
  | some b => simp [mem_filterMap]

theorem getElem?_of_findIdx? (h : order.findIdx? (· == b) = some j) : order[j]? = some b := by
  obtain ⟨hj, heq, _⟩ := List.findIdx?_eq_some_iff_getElem.mp h
  rw [List.getElem?_eq_getElem hj]
  simpa using heq

/-- In a list without repetitions the place at which a block stands is the place that is found. -/
theorem findIdx?_of_getElem? (hnodup : order.Nodup) (h : order[j]? = some b) :
    order.findIdx? (· == b) = some j := by
  cases hk : order.findIdx? (· == b) with
  | none =>
    rw [List.findIdx?_eq_none_iff] at hk
    exact absurd (hk b (mem_of_getElem? h)) (by simp)
  | some k =>
    have hlt := (List.getElem?_eq_some_iff.mp h).1
    rw [(List.getElem?_inj hlt hnodup).mp (h.trans (getElem?_of_findIdx? hk).symm)]

theorem getD_of_getElem? (h : order[j]? = some b) : order.getD j 0 = b := by
  rw [getD_eq_getElem?_getD, h]
  rfl

namespace Coherent

/-! ## Numbers and blocks -/

variable (h : g.Coherent)

include h

/-- A block that can be reached has one number. -/
theorem exists_number (hb : g.Reachable b) : ∃ i : Nat, g.reversePostOrder[i]? = some b :=
  mem_iff_getElem?.mp ((mem_reversePostOrder h.bounded b).mpr hb)

theorem reachable (hi : g.reversePostOrder[i]? = some b) : g.Reachable b :=
  (mem_reversePostOrder h.bounded b).mp (mem_of_getElem? hi)

theorem number_unique (hi : g.reversePostOrder[i]? = some b)
    (hj : g.reversePostOrder[j]? = some b) : i = j :=
  (List.getElem?_inj (List.getElem?_eq_some_iff.mp hi).1 (nodup_reversePostOrder h.bounded)).mp
    (hi.trans hj.symm)

theorem number_entry : g.reversePostOrder[0]? = some g.entry := by
  obtain ⟨rest, hrest⟩ := reversePostOrder_eq_cons h.bounded
  rw [hrest]
  rfl

theorem length_pos : 0 < g.reversePostOrder.length :=
  (List.getElem?_eq_some_iff.mp h.number_entry).1

/-- The numbers come in an order that the table can be built in: every block but the entry has a
predecessor in front of it. -/
theorem ordered : DomTable.Ordered (g.predNumbers g.reversePostOrder) g.reversePostOrder.length := by
  refine ⟨fun i hpos hlt => ?_, fun i j hj => ?_⟩
  · have hsplit : g.reversePostOrder = g.reversePostOrder.take i
        ++ g.reversePostOrder[i] :: g.reversePostOrder.drop (i + 1) := by
      rw [getElem_cons_drop, take_append_drop]
    have hi : g.reversePostOrder[i]? = some g.reversePostOrder[i] := List.getElem?_eq_getElem hlt
    have hne : g.reversePostOrder[i] ≠ g.entry := fun heq =>
      Nat.ne_of_gt hpos (h.number_unique (hi.trans (congrArg some heq)) h.number_entry)
    obtain ⟨p, hp, hsucc⟩ := exists_earlier_pred h.bounded hsplit hne
    obtain ⟨j, hj, hjp⟩ := mem_take_iff_getElem.mp hp
    have hjp : g.reversePostOrder[j]? = some p := List.getElem?_eq_some_iff.mpr ⟨by omega, hjp⟩
    refine ⟨j, mem_predNumbers.mpr ⟨_, hi, p, h.succ _ _ (h.reachable hjp) hsucc, ?_⟩, by omega⟩
    exact findIdx?_of_getElem? (nodup_reversePostOrder h.bounded) hjp
  · obtain ⟨b, _, p, _, hfind⟩ := mem_predNumbers.mp hj
    exact (List.findIdx?_eq_some_iff_getElem.mp hfind).1

/-- A walk over blocks is a walk over their numbers. -/
theorem exists_numWalk {l : List BlockRef} (hl : g.Walk b l) :
    ∃ k i ns, DomTable.NumWalk (g.predNumbers g.reversePostOrder) k i ns ∧
      g.reversePostOrder[i]? = some b ∧ ns.map (g.reversePostOrder.getD · 0) = l := by
  induction hl with
  | start =>
    refine ⟨0, 0, [0], .start, h.number_entry, ?_⟩
    rw [map_singleton, getD_of_getElem? h.number_entry]
  | @step b c l hwalk hc ih =>
    obtain ⟨k, i, ns, hns, hi, hmap⟩ := ih
    have hreach : g.Reachable b := ⟨l, hwalk⟩
    obtain ⟨j, hj⟩ := h.exists_number (hreach.succ hc)
    obtain ⟨k', hw⟩ := hns.exists_step (mem_predNumbers.mpr ⟨c, hj, b, h.succ b c hreach hc,
      findIdx?_of_getElem? (nodup_reversePostOrder h.bounded) hi⟩)
    exact ⟨k', j, j :: ns, hw, hj, by rw [map_cons, hmap, getD_of_getElem? hj]⟩

/-- A walk over numbers is a walk over the blocks. -/
theorem walk_of_numWalk {k : Nat} {ns : List Nat}
    (hns : DomTable.NumWalk (g.predNumbers g.reversePostOrder) k i ns)
    (hi : g.reversePostOrder[i]? = some b) :
    g.Walk b (ns.map (g.reversePostOrder.getD · 0)) := by
  have hstep : ∀ {i j : Nat} {b : BlockRef} {l : List Nat},
      (∀ {c : BlockRef}, g.reversePostOrder[j]? = some c →
        g.Walk c (l.map (g.reversePostOrder.getD · 0))) →
      j ∈ g.predNumbers g.reversePostOrder i → g.reversePostOrder[i]? = some b →
      g.Walk b ((i :: l).map (g.reversePostOrder.getD · 0)) := by
    intro i j b l ih hj hi
    obtain ⟨b', hb', p, hp, hfind⟩ := mem_predNumbers.mp hj
    obtain rfl : b' = b := Option.some.inj (hb'.symm.trans hi)
    rw [map_cons, getD_of_getElem? hi]
    exact (ih (getElem?_of_findIdx? hfind)).step (h.pred b' p (h.reachable hi) hp)
  induction hns generalizing b with
  | start =>
    obtain rfl : g.entry = b := Option.some.inj (h.number_entry.symm.trans hi)
    rw [map_singleton, getD_of_getElem? hi]
    exact .start
  | forward _ hj _ ih => exact hstep (fun hc => ih hc) hj hi
  | backward _ hj _ ih => exact hstep (fun hc => ih hc) hj hi

theorem dominates_iff_dom (hi : g.reversePostOrder[i]? = some b)
    (hj : g.reversePostOrder[j]? = some a) :
    g.Dominates a b ↔ DomTable.Dom (g.predNumbers g.reversePostOrder) i j := by
  constructor
  · intro hdom k ns hns
    obtain ⟨x, hx, hxa⟩ := mem_map.mp (hdom _ (h.walk_of_numWalk hns hi))
    have hlt := hns.lt_of_mem h.ordered (List.getElem?_eq_some_iff.mp hi).1 x hx
    have hnumber : g.reversePostOrder[x]? = some a := by
      rw [← hxa, getD_of_getElem? (List.getElem?_eq_getElem hlt), List.getElem?_eq_getElem hlt]
    exact h.number_unique hnumber hj ▸ hx
  · intro hdom l hl
    obtain ⟨k, i', ns, hns, hi', rfl⟩ := h.exists_numWalk hl
    obtain rfl := h.number_unique hi hi'
    exact mem_map.mpr ⟨j, hdom k ns hns, getD_of_getElem? hj⟩

/-- The ways up the finished table lead to all dominators, and to nothing else. -/
theorem dominates_iff_up (hi : g.reversePostOrder[i]? = some b)
    (hj : g.reversePostOrder[j]? = some a) :
    g.Dominates a b ↔ DomTable.Up (g.domTable g.reversePostOrder) i j := by
  rw [h.dominates_iff_dom hi hj, domTable_eq]
  exact (DomTable.up_iterate_iff h.length_pos h.ordered (List.getElem?_eq_some_iff.mp hi).1).symm

theorem tree : DomTable.Tree (g.domTable g.reversePostOrder) :=
  (DomTable.stage_iterate h.length_pos h.ordered).tree

/-- Neither the passes over the blocks nor the ways up to a meeting point, in tables that are partly
changed, end because of the number of steps that they may take. -/
theorem settles : g.Settles where
  passes := DomTable.pass_iterate h.length_pos h.ordered
  meets _ _ _ _ _ t hk ht ha hb hfuel := DomTable.meet_passTo h.length_pos h.ordered hk t ht ha hb hfuel

/-! ## Closest dominators -/

/-- A dominator of a block that can be reached can be reached itself. -/
theorem exists_number_of_dominates (hb : g.Reachable b) (hdom : g.Dominates a b) :
    ∃ j : Nat, g.reversePostOrder[j]? = some a := by
  obtain ⟨l, hl⟩ := hb
  exact h.exists_number (hl.reachable_of_mem (hdom l hl))

theorem antisymm (hb : g.Reachable b) (hab : g.Dominates a b) (hba : g.Dominates b a) : a = b := by
  obtain ⟨i, hi⟩ := h.exists_number hb
  obtain ⟨j, hj⟩ := h.exists_number_of_dominates hb hab
  have hle := ((h.dominates_iff_up hi hj).mp hab).le h.tree
  have hle' := ((h.dominates_iff_up hj hi).mp hba).le h.tree
  obtain rfl : i = j := Nat.le_antisymm hle' hle
  exact Option.some.inj (hj.symm.trans hi)

theorem closest_unique {d' : BlockRef} (hb : g.Reachable b) (hd : g.Closest d b)
    (hd' : g.Closest d' b) : d = d' := by
  obtain ⟨j, hj⟩ := h.exists_number_of_dominates hb hd'.dominates
  exact h.antisymm (h.reachable hj) (hd'.above d hd.ne hd.dominates)
    (hd.above d' hd'.ne hd'.dominates)

/-- The entry of a block in the finished table is the number of its closest dominator. -/
theorem closest_of_entry (hi : g.reversePostOrder[i]? = some b) (hpos : 0 < i)
    (hj : (g.domTable g.reversePostOrder).getD i none = some j) :
    g.Closest (g.reversePostOrder.getD j 0) b := by
  have hlt := h.tree.falls i j hpos hj
  have hd : g.reversePostOrder[j]? = some (g.reversePostOrder.getD j 0) := by
    have hlength := (List.getElem?_eq_some_iff.mp hi).1
    rw [getD_eq_getElem?_getD, List.getElem?_eq_getElem (by omega), Option.getD_some]
  refine ⟨fun heq => ?_, (h.dominates_iff_up hi hd).mpr (.up hj .here), fun a hne ha => ?_⟩
  · exact Nat.ne_of_lt hlt (h.number_unique (heq ▸ hd) hi)
  · obtain ⟨x, hx⟩ := h.exists_number_of_dominates (h.reachable hi) ha
    refine (h.dominates_iff_up hd hx).mpr (((h.dominates_iff_up hi hx).mp ha).of_ne ?_ hj)
    rintro rfl
    exact hne (Option.some.inj (hx.symm.trans hi))

theorem exists_entry (hi : g.reversePostOrder[i]? = some b) :
    ∃ j, (g.domTable g.reversePostOrder).getD i none = some j :=
  ((DomTable.stage_iterate h.length_pos h.ordered).known i (List.getElem?_eq_some_iff.mp hi).1
    (.inr (Nat.succ_pos _))).exists_eq

theorem exists_closest (hb : g.Reachable b) (hne : b ≠ g.entry) : ∃ d, g.Closest d b := by
  obtain ⟨i, hi⟩ := h.exists_number hb
  obtain ⟨j, hj⟩ := h.exists_entry hi
  refine ⟨_, h.closest_of_entry hi (Nat.pos_of_ne_zero ?_) hj⟩
  rintro rfl
  exact hne (Option.some.inj (hi.symm.trans h.number_entry))

/-- What is found is the closest dominator of each block that can be reached, the entry apart. -/
theorem mem_idoms_iff : (b, d) ∈ g.idoms ↔ g.Reachable b ∧ b ≠ g.entry ∧ g.Closest d b := by
  have hidoms : ∀ b d, (b, d) ∈ g.idoms ↔ ∃ i, i + 1 < g.reversePostOrder.length ∧
      g.reversePostOrder[i + 1]? = some b ∧
      g.reversePostOrder.getD (((g.domTable g.reversePostOrder).getD (i + 1) none).getD 0) 0 = d := by
    intro b d
    simp only [idoms, mem_map, mem_range, Prod.mk.injEq]
    refine exists_congr fun i => ⟨fun hi => ?_, fun hi => ?_⟩
    · have hlt : i + 1 < g.reversePostOrder.length := by omega
      refine ⟨hlt, ?_, hi.2.2⟩
      rw [← hi.2.1, getD_of_getElem? (List.getElem?_eq_getElem hlt), List.getElem?_eq_getElem hlt]
    · exact ⟨by omega, getD_of_getElem? hi.2.1, hi.2.2⟩
  rw [hidoms]
  constructor
  · rintro ⟨i, hlt, hi, rfl⟩
    obtain ⟨j, hj⟩ := h.exists_entry hi
    refine ⟨h.reachable hi, ?_, ?_⟩
    · rintro rfl
      exact Nat.succ_ne_zero i (h.number_unique hi h.number_entry)
    · rw [hj]
      exact h.closest_of_entry hi (Nat.succ_pos i) hj
  · rintro ⟨hb, hne, hd⟩
    obtain ⟨i, hi⟩ := h.exists_number hb
    cases i with
    | zero => exact absurd (Option.some.inj (hi.symm.trans h.number_entry)) hne
    | succ i =>
      obtain ⟨j, hj⟩ := h.exists_entry hi
      refine ⟨i, (List.getElem?_eq_some_iff.mp hi).1, hi, ?_⟩
      rw [hj]
      exact h.closest_unique hb (h.closest_of_entry hi (Nat.succ_pos i) hj) hd

theorem nodup_idoms : (g.idoms.map Prod.fst).Nodup := by
  have htail : g.idoms.map Prod.fst = g.reversePostOrder.tail := by
    refine ext_getElem (by simp [idoms]) fun i hi hi' => ?_
    have hlt : i + 1 < g.reversePostOrder.length := by
      simp at hi'
      omega
    simp [idoms, getD_eq_getElem?_getD, hlt]
  rw [htail]
  exact (nodup_reversePostOrder h.bounded).sublist (tail_sublist _)

end Coherent

end SsaCompiler.Ssa.Flow
