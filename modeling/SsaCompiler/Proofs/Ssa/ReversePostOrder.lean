import Mathlib.Algebra.BigOperators.Fin
import Mathlib.Algebra.Order.BigOperators.Group.Finset
import SsaCompiler.Proofs.Ssa.Walk

/-!
# The reverse post-order lists what can be reached

The search keeps its path on a stack. What holds of every state of it (`Search.Inv`) says where the
blocks that have been entered are, that no edge out of a block that has been left is forgotten, and
that a block is left before the block from which it was entered. Every step takes one successor or
leaves one block (`Search.work_step`), so a search of which each block and each edge is counted in
the bound comes to its end.
-/

namespace SsaCompiler.Ssa

open List

variable {all : Finset BlockRef} {x : BlockRef × List BlockRef}

namespace Flow

variable {g : Flow}

namespace Search

/-- Each block of a path follows the one below it; the lowest is the entry. -/
def Linked (g : Flow) : List (BlockRef × List BlockRef) → Prop
  | [] => True
  | [(b, _)] => b = g.entry
  | (b, _) :: (c, ts) :: rest => b ∈ g.succs c ∧ Linked g ((c, ts) :: rest)

/-- The successors `x.2` of a block `x.1` that are still to be looked at are all but those entered. -/
structure Looked (g : Flow) (seen : List BlockRef) (x : BlockRef × List BlockRef) : Prop where
  pending : x.2 ⊆ g.succs x.1
  looked : ∀ c ∈ g.succs x.1, c ∈ x.2 ∨ c ∈ seen

/-- What holds of every state of a search. -/
structure Inv (g : Flow) (s : Search) : Prop where
  /-- The blocks entered are those on the path and those left. -/
  seen_iff : ∀ b, b ∈ s.seen ↔ b ∈ s.path.map Prod.fst ∨ b ∈ s.done
  nodup : (s.path.map Prod.fst ++ s.done).Nodup
  reachable : ∀ b ∈ s.seen, g.Reachable b
  looked : ∀ x ∈ s.path, Looked g s.seen x
  /-- All successors of a block that has been left have been entered. -/
  closed : ∀ b ∈ s.done, ∀ c ∈ g.succs b, c ∈ s.seen
  linked : Linked g s.path
  /-- A block that has been left follows one that has been left later, or one on the path. -/
  earlier : ∀ pre b post, s.done = pre ++ b :: post →
    b = g.entry ∨ ∃ p, b ∈ g.succs p ∧ (p ∈ pre ∨ p ∈ s.path.map Prod.fst)
  /-- The entry is left last. -/
  finished : s.path = [] → ∃ rest, s.done = g.entry :: rest

/-- The state in which a search starts. -/
def initial (g : Flow) : Search :=
  ⟨[(g.entry, g.succs g.entry)], [g.entry], []⟩

variable {s : Search} {b t : BlockRef} {ts seen done : List BlockRef}
  {rest : List (BlockRef × List BlockRef)}

theorem Looked.init (g : Flow) (seen : List BlockRef) (b : BlockRef) :
    Looked g seen (b, g.succs b) :=
  ⟨List.Subset.refl _, fun _ => .inl⟩

theorem Looked.cons (h : Looked g seen x) (t : BlockRef) : Looked g (t :: seen) x :=
  ⟨h.pending, fun c hc => (h.looked c hc).imp_right (mem_cons_of_mem _)⟩

/-- A successor that has been entered is passed over. -/
theorem Looked.skip (h : Looked g seen (b, t :: ts)) (ht : t ∈ seen) : Looked g seen (b, ts) := by
  refine ⟨fun c hc => h.pending (mem_cons_of_mem _ hc), fun c hc => ?_⟩
  rcases h.looked c hc with hc | hc
  · rcases mem_cons.mp hc with rfl | hc
    · exact .inr ht
    · exact .inl hc
  · exact .inr hc

theorem inv_initial (g : Flow) : Inv g (initial g) where
  seen_iff := by simp [initial]
  nodup := by simp [initial]
  reachable := forall_mem_singleton.mpr (.entry g)
  looked := forall_mem_singleton.mpr (.init ..)
  closed := by simp [initial]
  linked := rfl
  earlier := by simp [initial]
  finished := by simp [initial]

theorem Linked.tail (h : Linked g (x :: rest)) : Linked g rest := by
  cases rest with
  | nil => trivial
  | cons y rest => exact h.2

/-- The successors that are still to be looked at do not matter for the links. -/
theorem Linked.retop {us : List BlockRef} (h : Linked g ((b, ts) :: rest)) :
    Linked g ((b, us) :: rest) := by
  cases rest with
  | nil => exact h
  | cons y rest => exact h

theorem Inv.leave (h : Inv g ⟨(b, []) :: rest, seen, done⟩) : Inv g ⟨rest, seen, b :: done⟩ := by
  obtain ⟨htop, hrest⟩ := forall_mem_cons.mp h.looked
  refine
    { seen_iff := fun c => (h.seen_iff c).trans ?_, nodup := ?_, reachable := h.reachable,
      looked := hrest, closed := forall_mem_cons.mpr ⟨fun d hd => ?_, h.closed⟩,
      linked := h.linked.tail, earlier := ?_, finished := ?_ }
  · grind
  · refine (List.Perm.nodup_iff ?_).mpr h.nodup
    simp
  · exact (htop.looked d hd).resolve_left not_mem_nil
  · intro pre c post hdone
    cases pre with
    | nil =>
      -- the block just left follows the one below it on the path
      obtain ⟨rfl, -⟩ := List.cons.inj hdone
      cases rest with
      | nil => exact .inl h.linked
      | cons y rest => exact .inr ⟨y.1, h.linked.1, .inr mem_cons_self⟩
    | cons d pre =>
      obtain ⟨rfl, hold⟩ := List.cons.inj hdone
      refine (h.earlier pre c post hold).imp_right ?_
      rintro ⟨p, hc, hp⟩
      refine ⟨p, hc, ?_⟩
      grind
  · rintro rfl
    exact ⟨done, by rw [show b = g.entry from h.linked]⟩

theorem Inv.skip (h : Inv g ⟨(b, t :: ts) :: rest, seen, done⟩) (ht : t ∈ seen) :
    Inv g ⟨(b, ts) :: rest, seen, done⟩ := by
  obtain ⟨htop, hrest⟩ := forall_mem_cons.mp h.looked
  exact
    { h with
      looked := forall_mem_cons.mpr ⟨htop.skip ht, hrest⟩
      linked := h.linked.retop
      finished := by simp }

/-- A successor that has not been entered goes on top of the path. -/
theorem Inv.push (h : Inv g ⟨(b, t :: ts) :: rest, seen, done⟩) (ht : t ∉ seen) :
    Inv g ⟨(t, g.succs t) :: (b, ts) :: rest, t :: seen, done⟩ := by
  obtain ⟨htop, hrest⟩ := forall_mem_cons.mp h.looked
  have htb : t ∈ g.succs b := htop.pending mem_cons_self
  have hb : b ∈ seen := (h.seen_iff b).mpr (.inl mem_cons_self)
  refine
    { seen_iff := fun c => ?_, nodup := ?_,
      reachable := forall_mem_cons.mpr ⟨(h.reachable b hb).succ htb, h.reachable⟩,
      looked := forall_mem_cons.mpr ⟨.init .., forall_mem_cons.mpr ⟨?_, fun x hx => ?_⟩⟩,
      closed := fun c hc d hd => mem_cons_of_mem _ (h.closed c hc d hd),
      linked := ⟨htb, h.linked.retop⟩, earlier := fun pre c post hdone => ?_,
      finished := by simp }
  · have := h.seen_iff c
    grind
  · refine nodup_cons.mpr ⟨fun hmem => ht ((h.seen_iff t).mpr ?_), h.nodup⟩
    exact mem_append.mp hmem
  · exact (htop.cons t).skip mem_cons_self
  · exact (hrest x hx).cons t
  · refine (h.earlier pre c post hdone).imp_right ?_
    rintro ⟨p, hc, hp⟩
    exact ⟨p, hc, hp.imp_right (mem_cons_of_mem _)⟩

/-- The three ways in which a search takes a step. -/
theorem step_cases {P : Search → Search → Prop} (hne : s.path ≠ [])
    (leave : ∀ b rest seen done, P ⟨(b, []) :: rest, seen, done⟩ ⟨rest, seen, b :: done⟩)
    (skip : ∀ b t ts rest seen done, t ∈ seen →
      P ⟨(b, t :: ts) :: rest, seen, done⟩ ⟨(b, ts) :: rest, seen, done⟩)
    (push : ∀ b t ts rest seen done, t ∉ seen → P ⟨(b, t :: ts) :: rest, seen, done⟩
      ⟨(t, g.succs t) :: (b, ts) :: rest, t :: seen, done⟩) : P s (s.step g) := by
  obtain ⟨path, seen, done⟩ := s
  unfold Search.step
  split
  next hp => exact absurd hp hne
  next b rest hp =>
    obtain rfl : path = (b, []) :: rest := hp
    exact leave ..
  next b t ts rest hp =>
    obtain rfl : path = (b, t :: ts) :: rest := hp
    split
    next ht => exact skip _ _ _ _ _ _ (by simpa using ht)
    next ht => exact push _ _ _ _ _ _ (by simpa using ht)

theorem Inv.step (h : Inv g s) (hne : s.path ≠ []) : Inv g (s.step g) :=
  step_cases (P := fun s s' => Inv g s → Inv g s') hne (fun _ _ _ _ h => h.leave)
    (fun _ _ _ _ _ _ ht h => h.skip ht) (fun _ _ _ _ _ _ ht h => h.push ht) h

theorem Inv.run (h : Inv g s) (n : Nat) : Inv g (Search.run g n s) := by
  induction n generalizing s with
  | zero => exact h
  | succ n ih =>
    rw [Search.run]
    split
    next => exact h
    next hne => exact ih (h.step (by simpa using hne))

/-! ## The end of the search -/

/-- What a block costs: one step for each successor and one to leave it. -/
def cost (g : Flow) (b : BlockRef) : Nat :=
  (g.succs b).length + 1

/-- The steps that a search over the blocks of `all` still takes. -/
def work (g : Flow) (all : Finset BlockRef) (s : Search) : Nat :=
  (s.path.map fun x => x.2.length + 1).sum + ∑ b ∈ all with b ∉ s.seen, cost g b

/-- Entering a block takes its cost out of what lies ahead. -/
theorem sum_not_seen (ht : t ∈ all) (hseen : t ∉ seen) :
    ∑ b ∈ all with b ∉ seen, cost g b = cost g t + ∑ b ∈ all with b ∉ t :: seen, cost g b := by
  have herase : {b ∈ all | b ∉ t :: seen} = {b ∈ all | b ∉ seen}.erase t := by
    ext b
    simp only [Finset.mem_filter, mem_cons, Finset.mem_erase]
    tauto
  rw [herase, Finset.add_sum_erase _ _ (Finset.mem_filter.mpr ⟨ht, hseen⟩)]

/-- Every step of a search is one step less to take. -/
theorem work_step (hall : ∀ b, g.Reachable b → b ∈ all) (h : Inv g s) (hne : s.path ≠ []) :
    work g all (s.step g) + 1 = work g all s := by
  refine step_cases (P := fun s s' => Inv g s → work g all s' + 1 = work g all s) hne ?_ ?_ ?_ h
  · intro b rest seen done h
    simp only [work, map_cons, sum_cons, length_nil]
    omega
  · intro b t ts rest seen done ht h
    simp only [work, map_cons, sum_cons, length_cons]
    omega
  · intro b t ts rest seen done ht h
    have hmem : t ∈ all := hall t ((h.push ht).reachable t mem_cons_self)
    simp only [work, sum_not_seen hmem ht, map_cons, sum_cons, length_cons]
    rw [cost]
    omega

/-- A search that may take all the steps that are left comes to its end. -/
theorem path_run_eq_nil (hall : ∀ b, g.Reachable b → b ∈ all) (n : Nat) (h : Inv g s)
    (hn : work g all s ≤ n) : (Search.run g n s).path = [] := by
  induction n generalizing s with
  | zero =>
    cases hp : s.path with
    | nil => simpa [Search.run] using hp
    | cons x rest =>
      rw [work, hp, map_cons, sum_cons] at hn
      omega
  | succ n ih =>
    rw [Search.run]
    split
    next hnil => simpa using hnil
    next hne =>
      have hne : s.path ≠ [] := by simpa using hne
      have := work_step hall h hne
      exact ih (h.step hne) (by omega)

end Search

/-! ## The order -/

/-- A graph whose bound counts every block that can be reached and every edge out of one. -/
def Bounded (g : Flow) : Prop :=
  ∃ all : Finset BlockRef, (∀ b, g.Reachable b → b ∈ all) ∧ ∑ b ∈ all, Search.cost g b ≤ g.bound

section

variable (h : g.Bounded)

include h

theorem Bounded.path_eq_nil :
    (Search.run g g.bound (Search.initial g)).path = [] := by
  obtain ⟨all, hall, hbound⟩ := h
  refine Search.path_run_eq_nil hall _ (Search.inv_initial g) ?_
  have hsplit := Search.sum_not_seen (g := g) (hall _ (.entry g)) not_mem_nil
  simp only [not_mem_nil, not_false_eq_true, Finset.filter_true] at hsplit
  calc Search.work g all (Search.initial g)
      = ∑ b ∈ all, Search.cost g b := by
        rw [hsplit, Search.work, Search.initial]
        simp [Search.cost]
    _ ≤ g.bound := hbound

theorem Bounded.search_end :
    ∃ s : Search, Search.Inv g s ∧ s.path = [] ∧ s.done = g.reversePostOrder :=
  ⟨_, (Search.inv_initial g).run _, h.path_eq_nil, rfl⟩

theorem mem_reversePostOrder (b : BlockRef) :
    b ∈ g.reversePostOrder ↔ g.Reachable b := by
  obtain ⟨s, hinv, hpath, hdone⟩ := h.search_end
  have hseen : ∀ c, c ∈ s.seen ↔ c ∈ g.reversePostOrder := by
    intro c
    rw [hinv.seen_iff c, hpath, hdone]
    simp
  constructor
  · intro hb
    exact hinv.reachable b ((hseen b).mpr hb)
  · intro hb
    -- the order is closed under edges and holds the entry
    refine hb.induct ?_ ?_
    · obtain ⟨rest, hrest⟩ := hinv.finished hpath
      rw [← hdone, hrest]
      exact mem_cons_self
    · intro a c ha hc
      rw [← hdone] at ha
      exact (hseen c).mp (hinv.closed a ha c hc)

theorem nodup_reversePostOrder : g.reversePostOrder.Nodup := by
  obtain ⟨s, hinv, hpath, hdone⟩ := h.search_end
  have := hinv.nodup
  rw [hpath, hdone] at this
  simpa using this

theorem reversePostOrder_eq_cons :
    ∃ rest, g.reversePostOrder = g.entry :: rest := by
  obtain ⟨s, hinv, hpath, hdone⟩ := h.search_end
  exact hdone ▸ hinv.finished hpath

/-- Every block of the order but the entry follows an earlier one. -/
theorem exists_earlier_pred {pre post : List BlockRef}
    (horder : g.reversePostOrder = pre ++ b :: post) (hb : b ≠ g.entry) :
    ∃ p ∈ pre, b ∈ g.succs p := by
  obtain ⟨s, hinv, hpath, hdone⟩ := h.search_end
  rcases hinv.earlier pre b post (hdone.trans horder) with he | ⟨p, hp, hmem⟩
  · exact absurd he hb
  · rw [hpath] at hmem
    exact ⟨p, by simpa using hmem, hp⟩

end

end Flow

/-! ## The graphs of functions -/

namespace Module

variable {m : Module} {b c : BlockRef}

theorem lt_size_of_mem_succs (hc : c ∈ (m.block b).succs) : b < m.blocks.size := by
  by_contra hb
  rw [Module.block, Array.getD, dif_neg hb] at hc
  exact not_mem_nil hc

/-- The bound of a flow graph counts its edges twice. -/
theorem bound_flow (m : Module) (entry : BlockRef) : (m.flow entry).bound =
    2 * ∑ b ∈ Finset.range m.blocks.size, (m.block b).succs.length + 1 := by
  have hlength : (m.blocks.toList.flatMap Block.succs).length =
      ∑ b ∈ Finset.range m.blocks.size, (m.block b).succs.length := by
    rw [length_flatMap, ← Fin.sum_univ_getElem, Finset.sum_range]
    refine Fintype.sum_equiv (finCongr (by simp)) _ _ fun i => ?_
    have hi : i < m.blocks.size := by simpa using i.isLt
    simp [Module.block, hi]
  rw [← hlength]
  rfl

theorem bounded_flow (m : Module) (entry : BlockRef) : (m.flow entry).Bounded := by
  let targets := (Finset.range m.blocks.size).biUnion fun b => (m.block b).succs.toFinset
  refine ⟨insert entry targets, fun b hb => ?_, ?_⟩
  · obtain ⟨l, hl⟩ := hb
    cases hl with
    | start => exact Finset.mem_insert_self ..
    | @step a _ _ _ hb =>
      exact Finset.mem_insert_of_mem (Finset.mem_biUnion.mpr
        ⟨a, Finset.mem_range.mpr (lt_size_of_mem_succs hb), mem_toFinset.mpr hb⟩)
  · have hsuccs : ∑ b ∈ insert entry targets, (m.block b).succs.length ≤
        ∑ b ∈ Finset.range m.blocks.size, (m.block b).succs.length :=
      Finset.sum_le_sum_of_ne_zero fun b _ hb => by
        obtain ⟨c, hc⟩ := exists_mem_of_length_pos (Nat.pos_of_ne_zero hb)
        exact Finset.mem_range.mpr (lt_size_of_mem_succs hc)
    -- each block but the entry is the target of an edge
    have hcard : (insert entry targets).card ≤
        ∑ b ∈ Finset.range m.blocks.size, (m.block b).succs.length + 1 :=
      (Finset.card_insert_le ..).trans (Nat.succ_le_succ (Finset.card_biUnion_le.trans
        (Finset.sum_le_sum fun _ _ => toFinset_card_le _)))
    calc ∑ b ∈ insert entry targets, Flow.Search.cost (m.flow entry) b
        = ∑ b ∈ insert entry targets, (m.block b).succs.length + (insert entry targets).card := by
          simp [Flow.Search.cost, Module.flow, Finset.sum_add_distrib]
      _ ≤ (m.flow entry).bound := by
          rw [bound_flow]
          omega

end Module

end SsaCompiler.Ssa
