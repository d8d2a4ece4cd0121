import Mathlib.Order.Bounds.Defs
import SsaCompiler.Proofs.Ssa.RecordedDominators
import SsaCompiler.Ssa.Pass.Promote

/-!
# The dominance frontier

The frontier of a block holds the blocks at which its dominance ends: it dominates a predecessor, but
not the block itself, unless the two are the same. It is found by going up the recorded tree from each
predecessor to the closest dominator of the block. The way up comes by the dominators of the
predecessor that do not dominate that one (`Linked.mem_runners_iff`), and these are the dominators of
the predecessor that do not strictly dominate the block. A block with one predecessor is passed over:
its predecessor dominates it.

Phi values go to the blocks that are found by adding frontiers until nothing is new. Each block is put
on the list of work at most once, so the number of steps that are allowed is never what ends the search
(`Spread.work_run`), and what is found at the end is the least set that the frontiers do not lead out of.
-/

namespace SsaCompiler.Ssa

open List

namespace Module

variable {m : Module} {f : FuncRef} {a b d : BlockRef}

/-! ## The pairs of blocks that are listed -/

theorem mem_foldl_insert (xs df : Frontier) (x : BlockRef × BlockRef) :
    x ∈ xs.foldl Frontier.insert df ↔ x ∈ df ∨ x ∈ xs := by
  induction xs generalizing df with
  | nil => simp
  | cons y xs ih =>
    rw [foldl_cons, ih, Frontier.insert]
    by_cases hy : y ∈ df <;> grind

theorem nodup_foldl_insert (xs : Frontier) {df : Frontier} (h : df.Nodup) :
    (xs.foldl Frontier.insert df).Nodup := by
  induction xs generalizing df with
  | nil => exact h
  | cons y xs ih =>
    refine ih ?_
    rw [Frontier.insert]
    split
    next => exact h
    next hy => exact nodup_append.mpr ⟨h, nodup_singleton y, by grind⟩

theorem Frontier.mem_of {df : Frontier} : d ∈ df.of b ↔ (b, d) ∈ df := by
  simp [Frontier.of]

theorem nodup_domFrontier_of (m : Module) (f : FuncRef) (a : BlockRef) :
    ((m.domFrontier f).of a).Nodup := by
  refine (nodup_foldl_insert _ nodup_nil).filterMap ?_
  rintro ⟨r, d⟩ ⟨r', d'⟩ e he he'
  grind

end Module

/-! ## What the frontier is -/

namespace Linked

variable {m : Module} {r : FuncRef} {entry a b d p : BlockRef} (h : Linked m r entry)

include h

/-- The way up from a block to one of its dominators comes by those dominators that do not dominate
the latter. -/
theorem mem_runners_iff {fuel i : Nat} (hi : (m.flow entry).reversePostOrder[i]? = some p)
    (hfuel : i < fuel) (hd : (m.flow entry).Dominates d p) :
    a ∈ (m.computeDom r).runners (some d) fuel p ↔
      (m.flow entry).Dominates a p ∧ ¬ (m.flow entry).Dominates a d := by
  induction fuel generalizing p i with
  | zero => omega
  | succ fuel ih =>
    have hp := h.coherent.reachable hi
    rw [Module.runners]
    by_cases hdp : d = p
    · simp [hdp]
    · have hpd : ¬ (m.flow entry).Dominates p d := fun hpd => hdp (h.coherent.antisymm hp hd hpd)
      rcases h.idom_cases hi with ⟨rfl, -⟩ | ⟨e, j, he, hcl, hj, hje⟩
      · exact absurd (hd.eq_entry) hdp
      · have hde := hcl.above d hdp hd
        simp only [beq_iff_eq, Option.some.injEq, hdp, ↓reduceIte, he, Option.elim_some,
          mem_cons, ih hje (by omega) hde]
        constructor
        · rintro (rfl | ⟨hae, had⟩)
          · exact ⟨.refl _ _, hpd⟩
          · exact ⟨hae.trans hcl.dominates, had⟩
        · rintro ⟨hap, had⟩
          by_cases hne : a = p
          · exact .inl hne
          · exact .inr ⟨hcl.above a hne hap, had⟩

/-- What the ways up from the predecessors of a block come by. -/
theorem mem_domFrontier_of : b ∈ ((m.computeDom r).domFrontier r).of a ↔
    (m.flow entry).Reachable b ∧ 2 ≤ (m.block b).preds.length ∧
      ∃ p ∈ (m.block b).preds, (m.flow entry).Reachable p ∧
        a ∈ (m.computeDom r).runners ((m.computeDom r).block b).idom
          ((m.computeDom r).blocks.size + 1) p := by
  have hsame := Module.sameCode_computeDom m r
  have horder : (m.computeDom r).reversePostOrder r = (m.flow entry).reversePostOrder := by
    rw [Module.reversePostOrder, hsame.func_eq, h.entry_eq]
    exact congrArg Flow.reversePostOrder (hsame.flow_eq entry)
  rw [Module.Frontier.mem_of, Module.domFrontier, Module.mem_foldl_insert,
    Module.frontierPairs, horder]
  simp only [not_mem_nil, false_or, mem_flatMap, mem_ite_nil_left, mem_map,
    Prod.mk.injEq, Flow.mem_reversePostOrder h.coherent.bounded, hsame.preds_eq, hsame.func_eq,
    h.entry_eq]
  constructor
  · rintro ⟨c, hc, hlen, p, hp, hup, e, he, rfl, rfl⟩
    refine ⟨hc, by omega, p, hp, ?_, he⟩
    have hmem := (h.pred c (h.mem_of_reachable hc) p hp).1
    by_cases hpe : p = entry
    · exact hpe ▸ .entry _
    · obtain ⟨d, hd⟩ : ∃ d, ((m.computeDom r).block p).idom = some d := by
        simpa [hpe, Option.ne_none_iff_exists'] using hup
      exact ((h.idom_iff hmem).mp hd).1
  · rintro ⟨hb, hlen, p, hp, hreach, ha⟩
    refine ⟨b, hb, by omega, p, hp, ?_, a, ha, rfl, rfl⟩
    obtain ⟨i, hi⟩ := h.coherent.exists_number hreach
    rcases h.idom_cases hi with ⟨rfl, -⟩ | ⟨d, -, hd, -⟩
    · simp
    · simp [hd]

section

variable (hentry : (m.block entry).preds = [])

include hentry

/-- A block whose only predecessor can be reached is strictly dominated by what dominates that one. -/
theorem two_le_preds (hb : (m.flow entry).Reachable b) (hp : p ∈ (m.block b).preds)
    (hreach : (m.flow entry).Reachable p) (hap : (m.flow entry).Dominates a p)
    (hstrict : ¬ (a ≠ b ∧ (m.flow entry).Dominates a b)) : 2 ≤ (m.block b).preds.length := by
  by_contra hlen
  have hpos := length_pos_of_mem hp
  obtain ⟨c, hc⟩ := length_eq_one_iff.mp (show (m.block b).preds.length = 1 by omega)
  have honly : ∀ q ∈ (m.block b).preds, q = p := by
    intro q hq
    rw [hc, mem_singleton] at hp hq
    exact hq.trans hp.symm
  have hne : b ≠ entry := by
    rintro rfl
    simp [hentry] at hp
  have hpb : (m.flow entry).Dominates p b := by
    intro l hl
    cases hl with
    | start => exact absurd rfl hne
    | @step q _ l hq hb =>
      have hqb := (h.succ q (h.mem_of_reachable ⟨l, hq⟩) b hb).2
      exact mem_cons_of_mem _ (honly q hqb ▸ hq.self_mem)
  by_cases hab : a = b
  · subst hab
    obtain rfl := h.coherent.antisymm hreach hap hpb
    -- no walk gets to a block that only it leads to
    have hout : a ∈ (m.func r).blocks ∧ a ≠ a := by
      refine hb.induct (P := fun c => c ∈ (m.func r).blocks ∧ c ≠ a) ⟨h.entry_mem, hne.symm⟩ ?_
      rintro c _ ⟨hc, hca⟩ hsucc
      obtain ⟨hmem, hpred⟩ := h.succ c hc _ hsucc
      refine ⟨hmem, ?_⟩
      rintro rfl
      exact hca (honly c hpred)
    exact hout.2 rfl
  · exact hstrict ⟨hab, hap.trans hpb⟩

theorem mem_domFrontier_of_iff : b ∈ ((m.computeDom r).domFrontier r).of a ↔
    (m.flow entry).Reachable a ∧ (m.flow entry).Reachable b ∧
      (∃ p ∈ (m.block b).preds, (m.flow entry).Reachable p ∧ (m.flow entry).Dominates a p) ∧
      ¬ (a ≠ b ∧ (m.flow entry).Dominates a b) := by
  have hrunners : ∀ p ∈ (m.block b).preds, (m.flow entry).Reachable b →
      (m.flow entry).Reachable p →
      (a ∈ (m.computeDom r).runners ((m.computeDom r).block b).idom
          ((m.computeDom r).blocks.size + 1) p ↔
        (m.flow entry).Dominates a p ∧ ¬ (a ≠ b ∧ (m.flow entry).Dominates a b)) := by
    intro p hp hb hreach
    obtain ⟨i, hi⟩ := h.coherent.exists_number hb
    obtain ⟨j, hlt, hj⟩ := h.exists_number_lt hreach
    rcases h.idom_cases hi with ⟨rfl, -⟩ | ⟨d, -, hd, hcl, -⟩
    · simp [hentry] at hp
    · have hsucc := (h.pred b (h.mem_of_reachable hb) p hp).2
      rw [hd, h.mem_runners_iff hj hlt (hcl.dominates.of_succ hcl.ne hsucc)]
      refine and_congr_right fun _ => not_congr ⟨fun had => ⟨?_, had.trans hcl.dominates⟩,
        fun hab => hcl.above a hab.1 hab.2⟩
      rintro rfl
      exact hcl.ne (h.coherent.antisymm hb hcl.dominates had)
  rw [h.mem_domFrontier_of]
  constructor
  · rintro ⟨hb, -, p, hp, hreach, ha⟩
    obtain ⟨hap, hstrict⟩ := (hrunners p hp hb hreach).mp ha
    obtain ⟨j, hj⟩ := h.coherent.exists_number_of_dominates hreach hap
    exact ⟨h.coherent.reachable hj, hb, ⟨p, hp, hreach, hap⟩, hstrict⟩
  · rintro ⟨-, hb, ⟨p, hp, hreach, hap⟩, hstrict⟩
    exact ⟨hb, h.two_le_preds hentry hb hp hreach hap hstrict, p, hp, hreach,
      (hrunners p hp hb hreach).mpr ⟨hap, hstrict⟩⟩

end

end Linked

/-! ## Adding frontiers until nothing is new -/

namespace Module

/-- A set of blocks that takes in the frontiers of the blocks `defs` and of its own blocks. -/
def Absorbs (df : Frontier) (defs : List BlockRef) (t : Set BlockRef) : Prop :=
  ∀ b, b ∈ defs ∨ b ∈ t → ∀ d ∈ df.of b, d ∈ t

namespace Spread

variable {df : Frontier} {defs ds : List BlockRef} {s : Spread} {b d : BlockRef}

/-- What holds of every state of the search, while the blocks `ds` are still to be added. -/
structure Inv (df : Frontier) (defs ds : List BlockRef) (s : Spread) : Prop where
  nodup : s.found.Nodup
  queued_iff : ∀ b, b ∈ s.queued ↔ b ∈ defs ∨ b ∈ s.found
  work_queued : ∀ b ∈ s.work, b ∈ s.queued
  /-- Nothing is found that need not be. -/
  absorbed : ∀ t, Absorbs df defs t → ∀ d, d ∈ s.found ∨ d ∈ ds → d ∈ t
  /-- The frontier of a block that has been taken off the list has been added. -/
  spread : ∀ b ∈ s.queued, b ∈ s.work ∨ ∀ d ∈ df.of b, d ∈ s.found ∨ d ∈ ds

theorem Inv.start (df : Frontier) (defs : List BlockRef) :
    Inv df defs [] ⟨defs.reverse, defs, []⟩ := by
  constructor <;> simp +contextual

/-- Three things can happen to a block that is added. -/
theorem add_cases (s : Spread) (d : BlockRef) :
    (d ∈ s.found ∧ s.add d = s) ∨
    (d ∉ s.found ∧ d ∈ s.queued ∧ s.add d = { s with found := s.found ++ [d] }) ∨
    (d ∉ s.found ∧ d ∉ s.queued ∧
      s.add d = ⟨d :: s.work, d :: s.queued, s.found ++ [d]⟩) := by
  unfold Spread.add
  by_cases hf : d ∈ s.found
  · exact .inl ⟨hf, by simp [hf]⟩
  · by_cases hq : d ∈ s.queued
    · exact .inr (.inl ⟨hf, hq, by simp [hf, hq]⟩)
    · exact .inr (.inr ⟨hf, hq, by simp [hf, hq]⟩)

theorem Inv.add (h : Inv df defs (d :: ds) s) : Inv df defs ds (s.add d) := by
  obtain ⟨hnodup, hqueued, hwork, habsorbed, hspread⟩ := h
  rcases add_cases s d with ⟨hf, hs⟩ | ⟨hf, hq, hs⟩ | ⟨hf, hq, hs⟩
  · rw [hs]
    exact ⟨hnodup, hqueued, hwork, by grind, by grind⟩
  · rw [hs]
    exact ⟨by grind, by grind, hwork, by grind, by grind⟩
  · exact ⟨by grind, by grind, by grind, by grind, by grind⟩

theorem Inv.foldl (h : Inv df defs ds s) : Inv df defs [] (ds.foldl Spread.add s) := by
  induction ds generalizing s with
  | nil => exact h
  | cons d ds ih => exact ih h.add

/-- The next block is taken off the list, and its frontier is to be added. -/
theorem Inv.pop {rest : List BlockRef} (h : Inv df defs [] s) (hwork : s.work = b :: rest) :
    Inv df defs (df.of b) { s with work := rest } := by
  have hb := (h.queued_iff b).mp (h.work_queued b (by simp [hwork]))
  refine ⟨h.nodup, h.queued_iff, fun c hc => h.work_queued c (by simp [hwork, hc]), ?_, ?_⟩
  · intro t ht d hd
    rcases hd with hd | hd
    · exact h.absorbed t ht d (.inl hd)
    · exact ht b (hb.imp_right fun hf => h.absorbed t ht b (.inl hf)) d hd
  · intro c hc
    rcases h.spread c hc with hw | hall
    · rw [hwork, mem_cons] at hw
      rcases hw with rfl | hw
      · exact .inr fun d hd => .inr hd
      · exact .inl hw
    · exact .inr fun d hd => .inl ((hall d hd).resolve_right not_mem_nil)

theorem Inv.run (h : Inv df defs [] s) (fuel : Nat) : Inv df defs [] (Spread.run df fuel s) := by
  induction fuel generalizing s with
  | zero => exact h
  | succ fuel ih =>
    unfold Spread.run
    split
    next => exact h
    next b rest hwork => exact ih (h.pop hwork).foldl

/-- The blocks on the list and the pairs whose block can still be put on it. -/
def left (df : Frontier) (s : Spread) : Nat :=
  s.work.length + (df.filter fun x => x.2 ∉ s.queued).length

theorem left_add_le (hd : (b, d) ∈ df) (s : Spread) : left df (s.add d) ≤ left df s := by
  rcases add_cases s d with ⟨-, hs⟩ | ⟨-, -, hs⟩ | ⟨-, hq, hs⟩
  · rw [hs]
  · rw [hs]; rfl
  · have hlt : (df.filter fun x => x.2 ∉ d :: s.queued).length <
        (df.filter fun x => x.2 ∉ s.queued).length := by
      have hmem : (b, d) ∈ df.filter fun x => x.2 ∉ s.queued := by simp [hd, hq]
      have hsub : df.filter (fun x => x.2 ∉ d :: s.queued) =
          (df.filter fun x => x.2 ∉ s.queued).filter fun x => x.2 ≠ d := by
        rw [filter_filter]
        exact filter_congr fun x _ => by simp [not_or]
      rw [hsub]
      exact length_filter_lt_length_iff_exists.mpr ⟨_, hmem, by simp⟩
    rw [hs]
    simp only [left, length_cons]
    omega

theorem left_foldl_le (hds : ∀ d ∈ ds, (b, d) ∈ df) (s : Spread) :
    left df (ds.foldl Spread.add s) ≤ left df s :=
  List.foldlRecOn (motive := fun s' => left df s' ≤ left df s) _ _ (Nat.le_refl _)
    fun s' hs' d hd => Nat.le_trans (left_add_le (hds d hd) s') hs'

/-- A search that may take as many steps as there are blocks to come ends with an empty list. -/
theorem work_run {fuel : Nat} (hfuel : left df s ≤ fuel) : (Spread.run df fuel s).work = [] := by
  induction fuel generalizing s with
  | zero =>
    rw [left] at hfuel
    have hlength : s.work.length = 0 := by omega
    exact length_eq_zero_iff.mp hlength
  | succ fuel ih =>
    unfold Spread.run
    split
    next hwork => exact hwork
    next b rest hwork =>
      have hof : ∀ d ∈ df.of b, (b, d) ∈ df := fun d hd => Frontier.mem_of.mp hd
      have hle := left_foldl_le hof { s with work := rest }
      simp only [left, hwork, length_cons] at hfuel hle
      exact ih (by simp only [left]; omega)

end Spread

theorem work_iteratedFrontier (df : Frontier) (defs : List BlockRef) :
    (Spread.run df (defs.length + df.length + 1) ⟨defs.reverse, defs, []⟩).work = [] := by
  refine Spread.work_run ?_
  have := length_filter_le (fun x : BlockRef × BlockRef => decide (x.2 ∉ defs)) df
  simp only [Spread.left, length_reverse]
  omega

theorem inv_iteratedFrontier (df : Frontier) (defs : List BlockRef) :
    Spread.Inv df defs [] (Spread.run df (defs.length + df.length + 1) ⟨defs.reverse, defs, []⟩) :=
  (Spread.Inv.start df defs).run _

theorem isLeast_iteratedFrontier (df : Frontier) (defs : List BlockRef) :
    IsLeast {t | Absorbs df defs t} {d | d ∈ iteratedFrontier df defs} := by
  have hinv := inv_iteratedFrontier df defs
  refine ⟨fun b hb d hd => ?_, fun t ht d hd => hinv.absorbed t ht d (.inl hd)⟩
  rcases hinv.spread b ((hinv.queued_iff b).mpr hb) with hwork | hall
  · rw [work_iteratedFrontier] at hwork
    exact absurd hwork not_mem_nil
  · exact (hall d hd).resolve_right not_mem_nil

end Module

/-- Phi values go to the iterated dominance frontier. Once the dominators are on record, the frontier of
`a` lists, each once, the blocks `b` with a predecessor that `a` dominates and that can be reached, such
that `a` does not strictly dominate `b`. Whatever the blocks are that define a slot, the search that adds
frontiers comes to its end, and it lists, each once, the blocks of the least set that takes in the
frontiers of those blocks and of its own. -/
theorem Linked.phis_at_iterated_frontier {m : Module} {r : FuncRef} {entry : BlockRef}
    (h : Linked m r entry) (hentry : (m.block entry).preds = []) :
    (∀ a, (((m.computeDom r).domFrontier r).of a).Nodup ∧
      ∀ b, b ∈ ((m.computeDom r).domFrontier r).of a ↔
        (m.flow entry).Reachable a ∧ (m.flow entry).Reachable b ∧
        (∃ p ∈ (m.block b).preds, (m.flow entry).Reachable p ∧ (m.flow entry).Dominates a p) ∧
        ¬ (a ≠ b ∧ (m.flow entry).Dominates a b)) ∧
    ∀ (df : Module.Frontier) (defs : List BlockRef),
      (Module.Spread.run df (defs.length + df.length + 1) ⟨defs.reverse, defs, []⟩).work = [] ∧
      (Module.iteratedFrontier df defs).Nodup ∧
      IsLeast {t : Set BlockRef | ∀ b, b ∈ defs ∨ b ∈ t → ∀ d ∈ df.of b, d ∈ t}
        {d | d ∈ Module.iteratedFrontier df defs} := by
  constructor
  · intro a
    exact ⟨Module.nodup_domFrontier_of _ _ a, fun b => h.mem_domFrontier_of_iff hentry⟩
  · intro df defs
    exact ⟨Module.work_iteratedFrontier df defs, (Module.inv_iteratedFrontier df defs).nodup,
      Module.isLeast_iteratedFrontier df defs⟩

/-- Two loops, one inside the other, and a block that cannot be reached and leads into the inner one. -/
def nestedLoops : Module where
  name := "loops"
  funcs := #[{ name := "f", sig := .func .void [] false, blocks := [0, 1, 2, 3, 4], entry := some 0 }]
  blocks := #[
    { number := 0, func := 0, succs := [1] },
    { number := 1, func := 0, succs := [2, 3], preds := [0, 2] },
    { number := 2, func := 0, succs := [2, 1], preds := [1, 2, 4] },
    { number := 3, func := 0, preds := [1] },
    { number := 4, func := 0, succs := [2] }]

theorem phis_at_iterated_frontier_nestedLoops :
    Linked nestedLoops 0 0 ∧ (nestedLoops.block 0).preds = [] ∧
    (∃ p ∈ (nestedLoops.block 2).preds, (nestedLoops.flow 0).Reachable p ∧
      (nestedLoops.flow 0).Dominates 2 p) ∧
    ¬ (2 ≠ 1 ∧ (nestedLoops.flow 0).Dominates 2 1) ∧
    IsLeast {t : Set BlockRef | ∀ b, b ∈ [2] ∨ b ∈ t →
      ∀ d ∈ ((nestedLoops.computeDom 0).domFrontier 0).of b, d ∈ t} {d | d ∈ [1, 2]} := by
  have h : Linked nestedLoops 0 0 := by constructor <;> decide
  obtain ⟨hof, hleast⟩ := h.phis_at_iterated_frontier rfl
  have h2 := ((hof 2).2 2).mp (by decide)
  have h1 := ((hof 2).2 1).mp (by decide)
  exact ⟨h, rfl, h2.2.2.1, h1.2.2.2, (hleast _ [2]).2.2⟩

end SsaCompiler.Ssa
