import Mathlib.Data.List.Induction
import Mathlib.Data.List.Perm.Subperm
import Mathlib.Data.Nat.Init
import Mathlib.Logic.Function.Iterate
import SsaCompiler.Proofs.Ssa.Walk

/-!
# The dominator table is exact

The table holds a tree: the entry of a block is the block above it, which has a smaller number. A
pass sets every entry to the meeting point of the predecessors, and it reads entries that it has
already changed, so what is said about a table is said about its entries one by one (`Row`).

Walks are counted by their backward edges, which lead to a block of the same or a smaller number.
After `p` passes the entry of a block lies on all walks to it with fewer than `p` backward edges: a
forward edge is settled within the pass, a backward edge by the pass before. And an entry never skips
a dominator: the strict dominators of a block dominate its entry as well.

A walk that visits no block twice is too short to have more backward edges than there are passes. So
at the end the blocks above a block are exactly its dominators (`up_iterate_iff`), one pass more
changes nothing (`pass_iterate`), and the number of passes that are allowed is never what ends them.
-/

namespace SsaCompiler.Ssa.DomTable

open List

variable {t : DomTable} {preds : Nat → List Nat} {a b c d i j n x : Nat}

/-! ## The tree of a table -/

/-- `Up t i a`: going up the tree from `i` one comes by `a`. -/
inductive Up (t : DomTable) : Nat → Nat → Prop where
  | here {i : Nat} : Up t i i
  | up {i d a : Nat} : t.getD i none = some d → Up t d a → Up t i a

/-- The entry of the table is known. -/
def Known (t : DomTable) (i : Nat) : Prop :=
  (t.getD i none).isSome

/-- Going up ends at the first block and makes numbers smaller. -/
structure Tree (t : DomTable) : Prop where
  root : t.getD 0 none = some 0
  falls : ∀ i d, 0 < i → t.getD i none = some d → d < i
  closed : ∀ i d, t.getD i none = some d → Known t d

theorem Known.exists_eq (h : Known t i) : ∃ d, t.getD i none = some d :=
  Option.isSome_iff_exists.mp h

theorem Up.le (ht : Tree t) (h : Up t i a) : a ≤ i := by
  induction h with
  | here => exact Nat.le_refl _
  | @up i d a hd _ ih =>
    rcases Nat.eq_zero_or_pos i with rfl | hi
    · obtain rfl : d = 0 := by simpa [ht.root] using hd.symm
      exact ih
    · exact Nat.le_trans ih (Nat.le_of_lt (ht.falls i d hi hd))

theorem Up.known (ht : Tree t) (h : Up t i a) (hi : Known t i) : Known t a := by
  induction h with
  | here => exact hi
  | up hd _ ih => exact ih (ht.closed _ _ hd)

theorem Up.of_ne (h : Up t i a) (hne : a ≠ i) (hd : t.getD i none = some d) : Up t d a := by
  cases h with
  | here => exact absurd rfl hne
  | up hd' h => exact Option.some.inj (hd'.symm.trans hd) ▸ h

/-! ## Meeting points -/

theorem up_meet_iff (ht : Tree t) (fuel : Nat) (ha : Known t a) (hb : Known t b)
    (hfuel : a + b ≤ fuel) : Up t (meet t fuel a b) x ↔ Up t a x ∧ Up t b x := by
  induction fuel generalizing a b with
  | zero =>
    obtain ⟨rfl, rfl⟩ : a = 0 ∧ b = 0 := by omega
    exact (and_self_iff).symm
  | succ fuel ih =>
    rw [meet]
    by_cases hab : a = b
    · simp only [hab, beq_self_eq_true, ↓reduceIte, and_self]
    · simp only [beq_iff_eq, hab, ↓reduceIte]
      by_cases hlt : b < a
      · obtain ⟨d, hd⟩ := ha.exists_eq
        have hda := ht.falls a d (by omega) hd
        simp only [hlt, ↓reduceIte, hd, Option.getD_some]
        rw [ih (ht.closed _ _ hd) hb (by omega)]
        refine and_congr_left fun hx => ⟨.up hd, fun h => h.of_ne ?_ hd⟩
        have := hx.le ht
        omega
      · obtain ⟨d, hd⟩ := hb.exists_eq
        have hdb := ht.falls b d (by omega) hd
        simp only [hlt, ↓reduceIte, hd, Option.getD_some]
        rw [ih ha (ht.closed _ _ hd) (by omega)]
        refine and_congr_right fun hx => ⟨.up hd, fun h => h.of_ne ?_ hd⟩
        have := hx.le ht
        omega

/-- The steps up to a meeting point are as many as both numbers allow: further steps change nothing. -/
theorem meet_eq_of_le (ht : Tree t) {fuel : Nat} (ha : Known t a) (hb : Known t b)
    (hfuel : a + b ≤ fuel) : meet t fuel a b = meet t (a + b) a b := by
  have h := fun x => up_meet_iff (x := x) ht fuel ha hb hfuel
  have h' := fun x => up_meet_iff (x := x) ht (a + b) ha hb (Nat.le_refl _)
  exact Nat.le_antisymm (((h' _).mpr ((h _).mp .here)).le ht) (((h _).mpr ((h' _).mp .here)).le ht)

/-- What a meeting point `next` of the known ones among `js` is: what is above it is above all of
them, and there is one as soon as one of them is known. -/
def MeetsAll (t : DomTable) (js : List Nat) (next : Option Nat) : Prop :=
  (∀ n, next = some n → Known t n ∧ ∀ x, Up t n x ↔ ∀ j ∈ js, Known t j → Up t j x) ∧
    ∀ j ∈ js, Known t j → next.isSome

theorem MeetsAll.next {js : List Nat} {next : Option Nat} (ht : Tree t)
    (h : MeetsAll t js next) (j : Nat) : MeetsAll t (js ++ [j]) (meetNext t next j) := by
  unfold MeetsAll meetNext
  simp only [forall_mem_append, forall_mem_singleton]
  by_cases hj : Known t j
  · have hnone : (t.getD j none).isNone = false := by
      simpa [Known, Option.isSome_iff_ne_none] using hj
    simp only [hnone, Bool.false_eq_true, ↓reduceIte]
    cases next with
    | none =>
      refine ⟨?_, by simp⟩
      rintro n ⟨rfl⟩
      refine ⟨hj, fun x => ⟨fun hx => ⟨fun k hk hkn => ?_, fun _ => hx⟩, fun hx => hx.2 hj⟩⟩
      exact absurd (h.2 k hk hkn) Bool.false_ne_true
    | some m =>
      obtain ⟨hm, habove⟩ := h.1 m rfl
      have hmeet := fun x => up_meet_iff (x := x) ht (j + m) hj hm (Nat.le_refl _)
      refine ⟨?_, by simp⟩
      rintro n ⟨rfl⟩
      refine ⟨((hmeet _).mp .here).1.known ht hj, fun x => ?_⟩
      rw [hmeet, habove, and_comm]
      exact and_congr_right fun _ => ⟨fun hx _ => hx, fun hx => hx hj⟩
  · have hnone : (t.getD j none).isNone := by
      simpa [Known] using hj
    simp only [hnone, ↓reduceIte, hj, false_implies, and_true]
    exact h

theorem meetsAll_meetAll (ht : Tree t) (js : List Nat) : MeetsAll t js (meetAll t js) := by
  induction js using List.reverseRecOn with
  | nil => exact ⟨by simp [meetAll], by simp⟩
  | append_singleton js j ih =>
    rw [meetAll, foldl_append]
    exact ih.next ht j

/-! ## One update -/

theorem size_update (preds : Nat → List Nat) (t : DomTable) (i : Nat) :
    (update preds t i).size = t.size := by
  unfold update
  split
  · rfl
  · split <;> simp

theorem getD_update (hi : i < t.size) (h : meetAll t (preds i) = some d) (j : Nat) :
    (update preds t i).getD j none = if j = i then some d else t.getD j none := by
  unfold update
  split
  · grind
  · simp only [Array.getD_eq_getD_getElem?]
    grind

/-- An update of a block with an earlier predecessor that is known keeps the tree. -/
theorem exists_update (ht : Tree t) (hi : 0 < i) (hsize : i < t.size)
    (hj : j ∈ preds i) (hji : j < i) (hknown : Known t j) :
    ∃ d, (∀ k, (update preds t i).getD k none = if k = i then some d else t.getD k none) ∧
      (∀ x, Up t d x ↔ ∀ k ∈ preds i, Known t k → Up t k x) ∧ Tree (update preds t i) := by
  obtain ⟨hmeet, hsome⟩ := meetsAll_meetAll ht (preds i)
  obtain ⟨d, hd⟩ := Option.isSome_iff_exists.mp (hsome j hj hknown)
  obtain ⟨hdk, habove⟩ := hmeet d hd
  have hdi : d < i := Nat.lt_of_le_of_lt (((habove d).mp .here j hj hknown).le ht) hji
  have hget := getD_update hsize hd
  have hstill : ∀ k, Known t k → Known (update preds t i) k := by
    intro k hk
    rw [Known, hget]
    split
    · rfl
    · exact hk
  refine ⟨d, hget, habove, ?_, fun k e hk hke => ?_, fun k e hke => ?_⟩
  · rw [hget, if_neg (Nat.ne_of_lt hi)]
    exact ht.root
  all_goals
    rw [hget] at hke
    split at hke
  · cases hke
    exact ‹k = i› ▸ hdi
  · exact ht.falls k e hk hke
  · cases hke
    exact hstill d hdk
  · exact hstill e (ht.closed k e hke)

/-! ## Walks by numbers -/

/-- Every block but the first has a predecessor of a smaller number, and predecessors are blocks. -/
structure Ordered (preds : Nat → List Nat) (n : Nat) : Prop where
  forward : ∀ i, 0 < i → i < n → ∃ j ∈ preds i, j < i
  within : ∀ i, ∀ j ∈ preds i, j < n

/-- `NumWalk preds k i l`: the numbers `l`, the latest first, lead from the first block to `i` with
`k` backward edges. -/
inductive NumWalk (preds : Nat → List Nat) : Nat → Nat → List Nat → Prop where
  | start : NumWalk preds 0 0 [0]
  /-- An edge to a block of a larger number. -/
  | forward {k i j : Nat} {l : List Nat} :
    NumWalk preds k j l → j ∈ preds i → j < i → NumWalk preds k i (i :: l)
  /-- An edge to a block of no larger number. -/
  | backward {k i j : Nat} {l : List Nat} :
    NumWalk preds k j l → j ∈ preds i → i ≤ j → NumWalk preds (k + 1) i (i :: l)

namespace NumWalk

variable {k : Nat} {l : List Nat}

theorem exists_step (h : NumWalk preds k j l) (hj : j ∈ preds i) :
    ∃ k', NumWalk preds k' i (i :: l) := by
  rcases Nat.lt_or_ge j i with hlt | hge
  · exact ⟨k, h.forward hj hlt⟩
  · exact ⟨k + 1, h.backward hj hge⟩

theorem self_mem (h : NumWalk preds k i l) : i ∈ l := by
  cases h with
  | start => exact mem_cons_self
  | forward => exact mem_cons_self
  | backward => exact mem_cons_self

/-- Every number on a walk is the end of a part of it. -/
theorem exists_part (h : NumWalk preds k i l) (ha : a ∈ l) :
    ∃ k' l', k' ≤ k ∧ NumWalk preds k' a l' ∧ l' <:+ l := by
  induction h with
  | start =>
    obtain rfl : a = 0 := by simpa using ha
    exact ⟨0, [0], Nat.le_refl _, .start, suffix_refl _⟩
  | @forward k i j l h hj hji ih =>
    rcases mem_cons.mp ha with rfl | ha
    · exact ⟨k, _, Nat.le_refl _, h.forward hj hji, suffix_refl _⟩
    · obtain ⟨k', l', hk, hw, hs⟩ := ih ha
      exact ⟨k', l', hk, hw, hs.trans (suffix_cons _ _)⟩
  | @backward k i j l h hj hji ih =>
    rcases mem_cons.mp ha with rfl | ha
    · exact ⟨k + 1, _, Nat.le_refl _, h.backward hj hji, suffix_refl _⟩
    · obtain ⟨k', l', hk, hw, hs⟩ := ih ha
      exact ⟨k', l', by omega, hw, hs.trans (suffix_cons _ _)⟩

theorem lt_length (h : NumWalk preds k i l) : k < l.length := by
  induction h with
  | start => simp
  | forward _ _ _ ih => rw [length_cons]; omega
  | backward _ _ _ ih => rw [length_cons]; omega

theorem lt_of_mem (ho : Ordered preds n) (h : NumWalk preds k i l) (hi : i < n) :
    ∀ x ∈ l, x < n := by
  induction h with
  | start => exact forall_mem_singleton.mpr hi
  | forward _ hj _ ih => exact forall_mem_cons.mpr ⟨hi, ih (ho.within _ _ hj)⟩
  | backward _ hj _ ih => exact forall_mem_cons.mpr ⟨hi, ih (ho.within _ _ hj)⟩

/-- A walk that comes back to a block can be cut short there. -/
theorem exists_simple_step (h : ∃ k' l', NumWalk preds k' j l' ∧ l'.Nodup ∧ l' ⊆ l)
    (hj : j ∈ preds i) : ∃ k' l', NumWalk preds k' i l' ∧ l'.Nodup ∧ l' ⊆ i :: l := by
  obtain ⟨k, m, hm, hnodup, hsub⟩ := h
  by_cases hmem : i ∈ m
  · obtain ⟨k', l', _, hw, hs⟩ := hm.exists_part hmem
    exact ⟨k', l', hw, hnodup.sublist hs.sublist, fun x hx => .tail _ (hsub (hs.subset hx))⟩
  · obtain ⟨k', hw⟩ := hm.exists_step hj
    exact ⟨k', i :: m, hw, nodup_cons.mpr ⟨hmem, hnodup⟩, cons_subset_cons i hsub⟩

/-- A walk contains one that visits no block twice. -/
theorem exists_simple (h : NumWalk preds k i l) :
    ∃ k' l', NumWalk preds k' i l' ∧ l'.Nodup ∧ l' ⊆ l := by
  induction h with
  | start => exact ⟨0, [0], .start, by simp, List.Subset.refl _⟩
  | forward _ hj _ ih => exact exists_simple_step ih hj
  | backward _ hj _ ih => exact exists_simple_step ih hj

end NumWalk

/-- All walks to `i` come by `x`. -/
def Dom (preds : Nat → List Nat) (i x : Nat) : Prop :=
  ∀ k l, NumWalk preds k i l → x ∈ l

theorem Dom.pred (h : Dom preds i x) (hne : x ≠ i) (hj : j ∈ preds i) : Dom preds j x := by
  intro k l hl
  obtain ⟨k', hw⟩ := hl.exists_step hj
  exact (mem_cons.mp (h k' _ hw)).resolve_left hne

theorem Dom.eq_zero (h : Dom preds 0 x) : x = 0 :=
  mem_singleton.mp (h 0 [0] .start)

/-! ## Entries -/

/-- What is known about the entry `d` of the block `i`: it lies on all walks with fewer than `r`
backward edges, and it skips no dominator. -/
structure Row (preds : Nat → List Nat) (r i d : Nat) : Prop where
  sound : ∀ k l, k < r → NumWalk preds k i l → d ∈ l
  close : ∀ x, x ≠ i → Dom preds i x → Dom preds d x

theorem row_zero (r : Nat) : Row preds r 0 0 :=
  ⟨fun _ _ _ hw => hw.self_mem, fun _ hne hx => absurd hx.eq_zero hne⟩

/-- The entries of all blocks, each with a rank of its own. -/
def Rows (preds : Nat → List Nat) (rank : Nat → Nat) (t : DomTable) : Prop :=
  ∀ i d, t.getD i none = some d → Row preds (rank i) i d

namespace Rows

variable {rank : Nat → Nat} (h : Rows preds rank t) (ht : Tree t)

include h ht

/-- What is above a block lies on all walks to it with few backward edges. -/
theorem mem_of_up (hup : Up t i a) (hk : ∀ b ≤ i, k < rank b) (hw : NumWalk preds k i l) :
    a ∈ l := by
  induction hup generalizing k l with
  | here => exact hw.self_mem
  | @up i d a hd hup ih =>
    have hdi : d ≤ i := (Up.up hd .here).le ht
    have hdl := (h i d hd).sound k l (hk i (Nat.le_refl i)) hw
    obtain ⟨k', l', hk', hw', hs⟩ := hw.exists_part hdl
    refine hs.subset (ih (fun b hb => ?_) hw')
    exact Nat.lt_of_le_of_lt hk' (hk b (Nat.le_trans hb hdi))

theorem dom_of_up (hup : Up t i c) (hx : x ≤ c) (hdom : Dom preds i x) : Dom preds c x := by
  induction hup with
  | here => exact hdom
  | @up i d c hd hup ih =>
    refine ih hx ?_
    by_cases hxi : x = i
    · have hcd := hup.le ht
      have hdi : d ≤ i := (Up.up hd .here).le ht
      obtain rfl : d = i := by omega
      exact hdom
    · exact (h i d hd).close x hxi hdom

theorem up_of_dom (hi : Known t i) (hdom : Dom preds i x) : Up t i x := by
  induction i using Nat.strong_induction_on with
  | _ i ih =>
    by_cases hxi : x = i
    · exact hxi ▸ .here
    · obtain ⟨d, hd⟩ := hi.exists_eq
      rcases Nat.eq_zero_or_pos i with rfl | hpos
      · exact absurd hdom.eq_zero hxi
      · refine .up hd (ih d (ht.falls i d hpos hd) (ht.closed i d hd) ?_)
        exact (h i d hd).close x hxi hdom

/-- The meeting point of the predecessors of a block as its entry. A walk comes to the block from an
earlier block, whose rank has been raised already, or takes a backward edge. -/
theorem row_of_meets (hi : 0 < i) {r : Nat} (hbefore : ∀ b < i, r ≤ rank b) (hrank : ∀ b, r ≤ rank b + 1)
    (hknown : ∀ j ∈ preds i, j < i ∨ 1 < r → Known t j) (hj : j ∈ preds i) (hji : j < i)
    (hd : ∀ x, Up t d x ↔ ∀ k ∈ preds i, Known t k → Up t k x) : Row preds r i d := by
  have habove := (hd d).mp .here
  refine ⟨fun k l hk hw => ?_, fun x hne hx => ?_⟩
  · cases hw with
    | start => exact absurd hi (Nat.lt_irrefl 0)
    | @forward _ _ j l hw hj hji =>
      refine .tail _ (h.mem_of_up ht (habove j hj (hknown j hj (.inl hji))) (fun b hb => ?_) hw)
      exact Nat.lt_of_lt_of_le hk (hbefore b (Nat.lt_of_le_of_lt hb hji))
    | @backward k _ j l hw hj hij =>
      refine .tail _ (h.mem_of_up ht (habove j hj (hknown j hj (.inr ?_))) (fun b _ => ?_) hw)
      · omega
      · have := hrank b
        omega
  · have hxd : Up t d x :=
      (hd x).mpr fun k hk hkn => h.up_of_dom ht hkn (hx.pred hne hk)
    exact h.dom_of_up ht (habove j hj (hknown j hj (.inl hji))) (hxd.le ht) (hx.pred hne hj)

end Rows

/-! ## Passes -/

/-- The part of a pass that updates the blocks up to `k`. -/
def passTo (preds : Nat → List Nat) (t : DomTable) (k : Nat) : DomTable :=
  (List.range k).foldl (fun t i => update preds t (i + 1)) t

theorem passTo_succ (preds : Nat → List Nat) (t : DomTable) (k : Nat) :
    passTo preds t (k + 1) = update preds (passTo preds t k) (k + 1) := by
  rw [passTo, range_succ, foldl_append]
  rfl

/-- A table after `p` passes and the part of the next one that updates the blocks up to `k`. -/
structure Stage (preds : Nat → List Nat) (n p k : Nat) (t : DomTable) : Prop where
  size : t.size = n
  tree : Tree t
  known : ∀ j < n, j ≤ k ∨ 0 < p → Known t j
  rows : Rows preds (fun b => if b ≤ k then p + 1 else p) t

namespace Stage

variable {p k : Nat}

theorem update (h : Stage preds n p k t) (ho : Ordered preds n) (hk : k + 1 < n) :
    Stage preds n p (k + 1) (DomTable.update preds t (k + 1)) := by
  obtain ⟨j, hj, hji⟩ := ho.forward (k + 1) (by omega) hk
  obtain ⟨d, hget, hd, htree⟩ := exists_update h.tree (by omega) (h.size.symm ▸ hk) hj hji
    (h.known j (by omega) (.inl (by omega)))
  refine ⟨(size_update ..).trans h.size, htree, fun l hl hlk => ?_, fun i e he => ?_⟩
  · rw [Known, hget]
    split
    · rfl
    · exact h.known l hl (hlk.imp_left (by omega))
  · rw [hget] at he
    split at he
    next heq =>
      cases he
      simp only [heq, Nat.le_refl, ↓reduceIte]
      refine h.rows.row_of_meets h.tree (by omega) (fun b hb => ?_) (fun b => ?_)
        (fun i hi hor => h.known i (ho.within _ i hi) (by omega)) hj hji hd
      · exact Nat.le_of_eq (if_pos (by omega)).symm
      · split <;> omega
    next heq =>
      have hrank : (i ≤ k + 1) ↔ i ≤ k := by omega
      simpa only [hrank] using h.rows i e he

theorem passTo (h : Stage preds n p 0 t) (ho : Ordered preds n) (hk : k < n) :
    Stage preds n p k (passTo preds t k) := by
  induction k with
  | zero => exact h
  | succ k ih =>
    rw [passTo_succ]
    exact (ih (by omega)).update ho hk

/-- A pass settles one more backward edge. -/
theorem pass (h : Stage preds n p 0 t) (ho : Ordered preds n) (hn : 0 < n) :
    Stage preds n (p + 1) 0 (pass preds t) := by
  have hend : Stage preds n p (n - 1) (DomTable.pass preds t) := by
    have := h.passTo ho (k := n - 1) (by omega)
    rwa [← h.size] at this ⊢
  refine ⟨hend.size, hend.tree, fun j hj _ => hend.known j hj (.inl (by omega)), fun i d hd => ?_⟩
  rcases Nat.eq_zero_or_pos i with rfl | hi
  · obtain rfl : d = 0 := Option.some.inj (hd.symm.trans hend.tree.root)
    exact row_zero _
  · have hlt : i < n := by
      by_contra hge
      rw [Array.getD_eq_getD_getElem?, Array.getElem?_eq_none (by rw [hend.size]; omega)] at hd
      cases hd
    have hrow := hend.rows i d hd
    have hle : i ≤ n - 1 := by omega
    simpa only [hle, Nat.not_le.mpr hi, ↓reduceIte] using hrow

/-- After as many passes as there are blocks, what is above a block dominates it, and the other way
round. -/
theorem up_iff (h : Stage preds n p 0 t) (ho : Ordered preds n) (hp : n ≤ p) (hi : i < n) :
    Up t i x ↔ Dom preds i x := by
  refine ⟨fun hup k l hl => ?_, h.rows.up_of_dom h.tree (h.known i hi (.inr (by omega)))⟩
  obtain ⟨k', l', hw, hnodup, hsub⟩ := hl.exists_simple
  have hlength : l'.length ≤ n := by
    rw [← length_range (n := n)]
    exact (subperm_of_subset hnodup fun y hy =>
      mem_range.mpr (hw.lt_of_mem ho hi y hy)).length_le
  have hlt := hw.lt_length
  refine hsub (h.rows.mem_of_up h.tree hup (fun b _ => ?_) hw)
  split <;> omega

end Stage

theorem Tree.ext {t' : DomTable} (ht : Tree t) (ht' : Tree t') (hsize : t.size = t'.size)
    (hknown : ∀ i < t.size, Known t i) (hknown' : ∀ i < t.size, Known t' i)
    (h : ∀ i < t.size, ∀ x, Up t i x ↔ Up t' i x) : t = t' := by
  refine Array.ext hsize fun i hi hi' => ?_
  obtain ⟨d, hd⟩ := (hknown i hi).exists_eq
  obtain ⟨d', hd'⟩ := (hknown' i hi).exists_eq
  have heq : d = d' := by
    rcases Nat.eq_zero_or_pos i with rfl | hpos
    · rw [ht.root] at hd
      rw [ht'.root] at hd'
      exact Option.some.inj (hd.symm.trans hd')
    · have hdi := ht.falls i d hpos hd
      have hdi' := ht'.falls i d' hpos hd'
      have hle := (((h i hi d).mp (.up hd .here)).of_ne (by omega) hd').le ht'
      have hle' := (((h i hi d').mpr (.up hd' .here)).of_ne (by omega) hd).le ht
      omega
  simp only [Array.getD_eq_getD_getElem?, Array.getElem?_eq_getElem hi, Option.getD_some] at hd
  simp only [Array.getD_eq_getD_getElem?, Array.getElem?_eq_getElem hi', Option.getD_some] at hd'
  rw [hd, hd', heq]

/-- Passing until nothing changes is passing as often as allowed. -/
theorem iterate_eq (preds : Nat → List Nat) (fuel : Nat) (t : DomTable) :
    iterate preds fuel t = (pass preds)^[fuel] t := by
  induction fuel generalizing t with
  | zero => rfl
  | succ fuel ih =>
    rw [iterate, Function.iterate_succ_apply]
    by_cases h : pass preds t = t
    · simp only [h, beq_self_eq_true, ↓reduceIte]
      exact (Function.iterate_fixed h fuel).symm
    · simp only [beq_iff_eq, h, ↓reduceIte]
      exact ih (pass preds t)

theorem getD_initial (n i : Nat) (hn : 0 < n) :
    (initial n).getD i none = if i = 0 then some 0 else none := by
  simp only [initial, Array.getD_eq_getD_getElem?]
  by_cases hi : i = 0
  · subst hi
    rw [Array.getElem?_setIfInBounds_self_of_lt (by simpa using hn)]
    rfl
  · rw [Array.getElem?_setIfInBounds_ne (by omega)]
    simp only [hi, ↓reduceIte]
    by_cases h : i < n
    · simp [h]
    · simp [h]

theorem stage_initial (hn : 0 < n) : Stage preds n 0 0 (initial n) := by
  have hzero : ∀ i d, (initial n).getD i none = some d → i = 0 ∧ d = 0 := by
    intro i d hd
    rw [getD_initial n i hn] at hd
    split at hd
    next hi => exact ⟨hi, (Option.some.inj hd).symm⟩
    next => cases hd
  have hroot : Known (initial n) 0 := by
    rw [Known, getD_initial n 0 hn]
    rfl
  refine ⟨by simp [initial], ⟨getD_initial n 0 hn, fun i d hi hd => ?_, fun i d hd => ?_⟩,
    fun j _ hj => ?_, fun i d hd => ?_⟩
  · exact absurd (hzero i d hd).1 (Nat.pos_iff_ne_zero.mp hi)
  · exact (hzero i d hd).2 ▸ hroot
  · obtain rfl : j = 0 := by omega
    exact hroot
  · obtain ⟨rfl, rfl⟩ := hzero i d hd
    exact row_zero _

section

variable (hn : 0 < n) (ho : Ordered preds n)

include hn ho

theorem stage_passes (p : Nat) : Stage preds n p 0 ((pass preds)^[p] (initial n)) := by
  induction p with
  | zero => exact stage_initial hn
  | succ p ih =>
    rw [Function.iterate_succ_apply']
    exact ih.pass ho hn

theorem stage_iterate : Stage preds n (n * n + 1) 0 (iterate preds (n * n + 1) (initial n)) := by
  rw [iterate_eq]
  exact stage_passes hn ho _

/-- In the finished table the blocks above a block are its dominators. -/
theorem up_iterate_iff (hi : i < n) :
    Up (iterate preds (n * n + 1) (initial n)) i x ↔ Dom preds i x :=
  (stage_iterate hn ho).up_iff ho (Nat.le_succ_of_le (Nat.le_mul_of_pos_left n hn)) hi

/-- Meeting points are found while a pass is under way, in tables that are partly changed. -/
theorem meet_passTo {fuel : Nat} (hk : k < n) (t : DomTable)
    (ht : t = passTo preds ((pass preds)^[p] (initial n)) k) (ha : Known t a) (hb : Known t b)
    (hfuel : a + b ≤ fuel) : meet t fuel a b = meet t (a + b) a b :=
  meet_eq_of_le (ht ▸ ((stage_passes hn ho p).passTo ho hk).tree) ha hb hfuel

theorem pass_iterate : pass preds (iterate preds (n * n + 1) (initial n)) =
    iterate preds (n * n + 1) (initial n) := by
  have h := stage_iterate hn ho
  have h' := h.pass ho hn
  have hp : n ≤ n * n + 1 := Nat.le_succ_of_le (Nat.le_mul_of_pos_left n hn)
  refine h'.tree.ext h.tree (h'.size.trans h.size.symm) ?_ ?_ ?_ <;> rw [h'.size]
  · exact fun i hi => h'.known i hi (.inr (Nat.succ_pos _))
  · exact fun i hi => h.known i hi (.inr (Nat.succ_pos _))
  · exact fun i hi x => (h'.up_iff ho (Nat.le_succ_of_le hp) hi).trans (h.up_iff ho hp hi).symm

end

end SsaCompiler.Ssa.DomTable
