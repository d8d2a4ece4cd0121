import SsaCompiler.Ssa.Dominance

/-!
# Walks and dominance

A walk follows edges from the entry of a control flow graph. Dominance is a statement about all
walks, whatever their length and however often they come back to a block: a block dominates another
one if no walk gets to the latter without the former. This is the side that the computed dominators
are compared with.
-/

namespace SsaCompiler.Ssa.Flow

open List

/-- `g.Walk b l`: the blocks `l`, the latest first, lead from the entry to `b` along edges. -/
inductive Walk (g : Flow) : BlockRef → List BlockRef → Prop where
  | start : Walk g g.entry [g.entry]
  | step {b c : BlockRef} {l : List BlockRef} :
    Walk g b l → c ∈ g.succs b → Walk g c (c :: l)

/-- A block that some walk leads to. -/
def Reachable (g : Flow) (b : BlockRef) : Prop :=
  ∃ l, g.Walk b l

/-- Every walk to `b` comes by `a`. -/
def Dominates (g : Flow) (a b : BlockRef) : Prop :=
  ∀ l, g.Walk b l → a ∈ l

variable {g : Flow} {a b c : BlockRef} {l : List BlockRef} {P : BlockRef → Prop}

namespace Walk

theorem eq_cons (h : g.Walk b l) : ∃ t, l = b :: t := by
  cases h with
  | start => exact ⟨[], rfl⟩
  | step h hc => exact ⟨_, rfl⟩

theorem self_mem (h : g.Walk b l) : b ∈ l := by
  obtain ⟨t, rfl⟩ := h.eq_cons
  exact mem_cons_self

/-- Every block on a walk is the end of a part of it. -/
theorem exists_part (h : g.Walk b l) (ha : a ∈ l) :
    ∃ k, g.Walk a k ∧ k <:+ l := by
  induction h with
  | start =>
    obtain rfl : a = g.entry := by simpa using ha
    exact ⟨[g.entry], .start, suffix_refl _⟩
  | @step b c l h hc ih =>
    rcases mem_cons.mp ha with rfl | ha
    · exact ⟨a :: l, h.step hc, suffix_refl _⟩
    · obtain ⟨k, hk, hs⟩ := ih ha
      exact ⟨k, hk, hs.trans (suffix_cons _ _)⟩

theorem reachable_of_mem (h : g.Walk b l) (ha : a ∈ l) : g.Reachable a := by
  obtain ⟨k, hk, _⟩ := h.exists_part ha
  exact ⟨k, hk⟩

/-- A property of blocks that holds at the entry and is handed on along edges holds on the whole
walk. -/
theorem forall_mem (hentry : P g.entry) (hsucc : ∀ b c, P b → c ∈ g.succs b → P c) (h : g.Walk b l) :
    ∀ a ∈ l, P a := by
  induction h with
  | start =>
    intro a ha
    obtain rfl : a = g.entry := by simpa using ha
    exact hentry
  | @step b c l h hc ih =>
    intro a ha
    rcases mem_cons.mp ha with rfl | ha
    · exact hsucc b a (ih b h.self_mem) hc
    · exact ih a ha

end Walk

namespace Reachable

theorem entry (g : Flow) : g.Reachable g.entry :=
  ⟨_, .start⟩

theorem succ (h : g.Reachable b) (hc : c ∈ g.succs b) : g.Reachable c := by
  obtain ⟨l, hl⟩ := h
  exact ⟨_, hl.step hc⟩

/-- A property that holds at the entry and is handed on along edges holds of all blocks that can be
reached. -/
theorem induct (hentry : P g.entry) (hsucc : ∀ b c, P b → c ∈ g.succs b → P c) (h : g.Reachable b) :
    P b := by
  obtain ⟨l, hl⟩ := h
  exact hl.forall_mem hentry hsucc b hl.self_mem

end Reachable

namespace Dominates

theorem refl (g : Flow) (b : BlockRef) : g.Dominates b b :=
  fun _ h => h.self_mem

theorem trans (hab : g.Dominates a b) (hbc : g.Dominates b c) : g.Dominates a c := by
  intro l hl
  obtain ⟨k, hk, hsuffix⟩ := hl.exists_part (hbc l hl)
  exact hsuffix.subset (hab k hk)

theorem eq_entry (h : g.Dominates a g.entry) : a = g.entry :=
  mem_singleton.mp (h _ .start)

/-- A strict dominator of a block dominates the blocks that lead to it. -/
theorem of_succ (h : g.Dominates a c) (hne : a ≠ c) (hc : c ∈ g.succs b) : g.Dominates a b :=
  fun _ hl => (mem_cons.mp (h _ (hl.step hc))).resolve_left hne

end Dominates

/-- The closest strict dominator of a block: every other one dominates it as well. -/
structure Closest (g : Flow) (d b : BlockRef) : Prop where
  ne : d ≠ b
  dominates : g.Dominates d b
  above : ∀ a, a ≠ b → g.Dominates a b → g.Dominates a d

end SsaCompiler.Ssa.Flow
