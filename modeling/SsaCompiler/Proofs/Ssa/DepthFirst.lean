import SsaCompiler.Proofs.Ssa.ReversePostOrder

/-!
# Recursive depth-first search

A recursive search looks at successors in order, enters each block that has not been entered, and
finishes a block when it is through with its successors. The search with a path does the same
(`Search.exists_depthFirst`): what happens between looking at a block's successors and leaving the
block is one call of the recursive search. So the computed order is the reverse of the order in which
blocks are finished.
-/

namespace SsaCompiler.Ssa

namespace Flow

/-- `g.DepthFirst ts seen seen' post`: a recursive search that looks at the blocks `ts` in order when
the blocks `seen` have been entered finishes the blocks `post` in order, and then the blocks `seen'`
have been entered. -/
inductive DepthFirst (g : Flow) :
    List BlockRef → List BlockRef → List BlockRef → List BlockRef → Prop where
  | nil {seen : List BlockRef} : DepthFirst g [] seen seen []
  | skip {t : BlockRef} {ts seen seen' post : List BlockRef} :
    t ∈ seen → DepthFirst g ts seen seen' post → DepthFirst g (t :: ts) seen seen' post
  | visit {t : BlockRef} {ts seen below seen' post seen'' : List BlockRef} :
    t ∉ seen → DepthFirst g (g.succs t) (t :: seen) seen' below →
    DepthFirst g ts seen' seen'' post → DepthFirst g (t :: ts) seen seen'' (below ++ t :: post)

variable {g : Flow} {ts seen seen₁ seen₂ post₁ post₂ : List BlockRef}

theorem DepthFirst.unique (h₁ : g.DepthFirst ts seen seen₁ post₁)
    (h₂ : g.DepthFirst ts seen seen₂ post₂) : seen₁ = seen₂ ∧ post₁ = post₂ := by
  induction h₁ generalizing seen₂ post₂ with
  | nil =>
    cases h₂
    exact ⟨rfl, rfl⟩
  | skip ht _ ih =>
    cases h₂ with
    | skip _ h₂ => exact ih h₂
    | visit hn _ _ => exact absurd ht hn
  | visit hn _ _ ihbelow ihrest =>
    cases h₂ with
    | skip ht _ => exact absurd ht hn
    | visit _ hbelow hrest =>
      obtain ⟨rfl, rfl⟩ := ihbelow hbelow
      obtain ⟨rfl, rfl⟩ := ihrest hrest
      exact ⟨rfl, rfl⟩

/-- A search with a path that comes to its end leaves the top of the path, and until then it does what
a recursive search does. -/
theorem Search.exists_depthFirst (n : Nat) (b : BlockRef) (ts seen done : List BlockRef)
    (rest : List (BlockRef × List BlockRef))
    (hend : (Search.run g n ⟨(b, ts) :: rest, seen, done⟩).path = []) :
    ∃ seen' post k, k < n ∧ g.DepthFirst ts seen seen' post ∧
      Search.run g n ⟨(b, ts) :: rest, seen, done⟩ =
        Search.run g k ⟨rest, seen', b :: (post.reverse ++ done)⟩ := by
  induction n using Nat.strong_induction_on generalizing b ts seen done rest with
  | _ n ih =>
    cases n with
    | zero => exact absurd hend (List.cons_ne_nil _ _)
    | succ n =>
      have hstep : Search.run g (n + 1) ⟨(b, ts) :: rest, seen, done⟩ =
          Search.run g n (Search.step g ⟨(b, ts) :: rest, seen, done⟩) := rfl
      rw [hstep] at hend ⊢
      cases ts with
      | nil => exact ⟨seen, [], n, n.lt_succ_self, .nil, rfl⟩
      | cons t ts =>
        by_cases ht : t ∈ seen
        · have hskip : Search.step g ⟨(b, t :: ts) :: rest, seen, done⟩ =
              ⟨(b, ts) :: rest, seen, done⟩ := if_pos (by simpa using ht)
          rw [hskip] at hend ⊢
          obtain ⟨seen', post, k, hk, hdfs, hrun⟩ := ih n n.lt_succ_self _ _ _ _ _ hend
          exact ⟨seen', post, k, Nat.lt_succ_of_lt hk, .skip ht hdfs, hrun⟩
        · -- first the search below `t`, then the one over the other successors
          have hpush : Search.step g ⟨(b, t :: ts) :: rest, seen, done⟩ =
              ⟨(t, g.succs t) :: (b, ts) :: rest, t :: seen, done⟩ := if_neg (by simpa using ht)
          rw [hpush] at hend ⊢
          obtain ⟨seen', below, k, hk, hbelow, hrun⟩ := ih n n.lt_succ_self _ _ _ _ _ hend
          rw [hrun] at hend ⊢
          obtain ⟨seen'', post, j, hj, hrest, hrun'⟩ := ih k (by omega) _ _ _ _ _ hend
          exact ⟨seen'', below ++ t :: post, j, by omega, .visit ht hbelow hrest,
            by rw [hrun']; simp⟩

/-- The computed order is the reverse of the order in which a recursive search finishes blocks. -/
theorem Bounded.depthFirst (h : g.Bounded) :
    ∃ seen, g.DepthFirst [g.entry] [] seen g.reversePostOrder.reverse := by
  obtain ⟨seen, post, k, -, hdfs, hrun⟩ :=
    Search.exists_depthFirst g.bound g.entry (g.succs g.entry) [g.entry] [] [] h.path_eq_nil
  have horder : g.reversePostOrder = g.entry :: post.reverse := by
    rw [reversePostOrder, hrun]
    cases k <;> simp [Search.run]
  have hvisit := DepthFirst.visit List.not_mem_nil hdfs .nil
  exact ⟨seen, by simpa [horder] using hvisit⟩

/-- What a reverse post-order of a graph is. -/
structure IsReversePostOrder (g : Flow) (order : List BlockRef) : Prop where
  mem_iff : ∀ b, b ∈ order ↔ g.Reachable b
  nodup : order.Nodup
  head_eq : order.head? = some g.entry
  /-- A recursive search from the entry comes to its end. -/
  finishes : ∃ seen post, g.DepthFirst [g.entry] [] seen post
  eq_reverse : ∀ seen post, g.DepthFirst [g.entry] [] seen post → order = post.reverse
  earlier : ∀ front b rest, order = front ++ b :: rest → b ≠ g.entry → ∃ p ∈ front, b ∈ g.succs p

theorem Bounded.isReversePostOrder (h : g.Bounded) : g.IsReversePostOrder g.reversePostOrder := by
  obtain ⟨seen, hdfs⟩ := h.depthFirst
  obtain ⟨rest, hcons⟩ := reversePostOrder_eq_cons h
  exact
    { mem_iff := mem_reversePostOrder h
      nodup := nodup_reversePostOrder h
      head_eq := by rw [hcons, List.head?_cons]
      finishes := ⟨seen, _, hdfs⟩
      eq_reverse := fun _ _ h' => by rw [← (hdfs.unique h').2, List.reverse_reverse]
      earlier := fun _ _ _ => exists_earlier_pred h }

end Flow

/-- The search of a function comes to its end, and what it gives is the reverse post-order of the
function's graph. -/
theorem Module.search_ends_with_reversePostOrder (m : Module) (f : FuncRef) :
    ((m.func f).entry = none ∧ m.reversePostOrder f = []) ∨
      ∃ entry, (m.func f).entry = some entry ∧
        (Flow.Search.run (m.flow entry) (m.flow entry).bound (.initial (m.flow entry))).path = [] ∧
        (m.flow entry).IsReversePostOrder (m.reversePostOrder f) := by
  rw [Module.reversePostOrder]
  cases (m.func f).entry with
  | none => exact .inl ⟨rfl, rfl⟩
  | some entry =>
    have hbounded := m.bounded_flow entry
    exact .inr ⟨entry, rfl, hbounded.path_eq_nil, hbounded.isReversePostOrder⟩

end SsaCompiler.Ssa
