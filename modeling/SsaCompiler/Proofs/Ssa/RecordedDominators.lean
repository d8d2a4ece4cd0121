import SsaCompiler.Proofs.Ssa.ClosestDominators
import SsaCompiler.Proofs.Ssa.Growth
import SsaCompiler.Proofs.Ssa.WellFormed

/-!
# The recorded dominators

What is found out about the dominators of the blocks of a function is recorded in the blocks, as a
tree. The recorded tree decides dominance, in the sense of all walks (`Linked.dominates_iff`), and
each block holds its closest strict dominator and the blocks of which it is the closest one
(`Linked.computeDom_dominators`). The flow graph may have any shape: there can be edges back to the
entry, and blocks that cannot be reached can lead to blocks that can.

Recording changes nothing but the two fields that hold the tree (`Module.SameCode`), so what is
known about the code of the module is known about it afterwards.
-/

namespace SsaCompiler.Ssa

open List

namespace Module

/-! ## Recording changes no code -/

/-- Two modules that differ at most in the recorded dominators of blocks. -/
structure SameCode (m m' : Module) : Prop where
  name : m'.name = m.name
  funcs : m'.funcs = m.funcs
  globals : m'.globals = m.globals
  values : m'.values = m.values
  size : m'.blocks.size = m.blocks.size
  block : ∀ b, ∃ idom dominees,
    m'.block b = { m.block b with idom := idom, dominees := dominees }

namespace SameCode

variable {m m' m'' : Module} {b : BlockRef} {v : ValueRef} {f : FuncRef}

theorem refl (m : Module) : SameCode m m :=
  ⟨rfl, rfl, rfl, rfl, rfl, fun _ => ⟨_, _, rfl⟩⟩

theorem trans (h : SameCode m m') (h' : SameCode m' m'') : SameCode m m'' := by
  refine ⟨h'.name.trans h.name, h'.funcs.trans h.funcs, h'.globals.trans h.globals,
    h'.values.trans h.values, h'.size.trans h.size, fun b => ?_⟩
  obtain ⟨i, ds, hb⟩ := h.block b
  obtain ⟨i', ds', hb'⟩ := h'.block b
  exact ⟨i', ds', by rw [hb', hb]⟩

theorem modifyBlock (m : Module) (b : BlockRef) (idom : Block → Option BlockRef)
    (dominees : Block → List BlockRef) :
    SameCode m (m.modifyBlock b fun x => { x with idom := idom x, dominees := dominees x }) := by
  refine ⟨rfl, rfl, rfl, rfl, Array.size_modify, fun c => ?_⟩
  rw [block_modifyBlock]
  split
  · exact ⟨_, _, rfl⟩
  · exact ⟨_, _, rfl⟩

/-- A sequence of changes, each of which leaves the code as it is. -/
theorem foldl {α : Type} {change : Module → α → Module}
    (h : ∀ m x, SameCode m (change m x)) (xs : List α) (m : Module) :
    SameCode m (xs.foldl change m) :=
  List.foldlRecOn (motive := SameCode m) _ _ (refl m) fun m' hm' x _ => hm'.trans (h m' x)

theorem func_eq (h : SameCode m m') : m'.func f = m.func f := by
  rw [Module.func, h.funcs, Module.func]

theorem succs_eq (h : SameCode m m') : (m'.block b).succs = (m.block b).succs := by
  obtain ⟨i, ds, hb⟩ := h.block b
  rw [hb]

theorem preds_eq (h : SameCode m m') : (m'.block b).preds = (m.block b).preds := by
  obtain ⟨i, ds, hb⟩ := h.block b
  rw [hb]

end SameCode

theorem SameCode.flow_eq {m m' : Module} (h : SameCode m m') (entry : BlockRef) :
    m'.flow entry = m.flow entry := by
  have hsuccs : (fun b => (m'.block b).succs) = fun b => (m.block b).succs :=
    funext fun _ => h.succs_eq
  have hpreds : (fun b => (m'.block b).preds) = fun b => (m.block b).preds :=
    funext fun _ => h.preds_eq
  have hbound : (m'.flow entry).bound = (m.flow entry).bound := by
    simp only [bound_flow, h.size, h.succs_eq]
  calc m'.flow entry
      = ⟨entry, fun b => (m'.block b).succs, fun b => (m'.block b).preds,
          (m'.flow entry).bound⟩ := rfl
    _ = m.flow entry := by rw [hsuccs, hpreds, hbound]; rfl

/-! ## The recorded tree -/

theorem sameCode_forgetDom (m : Module) (bs : List BlockRef) : SameCode m (m.forgetDom bs) :=
  SameCode.foldl (fun m b => SameCode.modifyBlock m b (fun _ => none) fun _ => []) bs m

theorem sameCode_record (m : Module) (x : BlockRef × BlockRef) : SameCode m (m.record x) :=
  (SameCode.modifyBlock m x.1 (fun _ => some x.2) fun b => b.dominees).trans
    (SameCode.modifyBlock _ x.2 (fun b => b.idom) fun b => b.dominees ++ [x.1])

theorem sameCode_computeDom (m : Module) (r : FuncRef) : SameCode m (m.computeDom r) := by
  unfold computeDom
  dsimp only
  split
  · exact sameCode_forgetDom ..
  · exact (sameCode_forgetDom ..).trans (SameCode.foldl sameCode_record ..)

variable {m : Module} {r : FuncRef} {entry a b d : BlockRef}

theorem computeDom_eq (hentry : (m.func r).entry = some entry) :
    m.computeDom r = (m.flow entry).idoms.foldl record (m.forgetDom (m.func r).blocks) := by
  have hsame := sameCode_forgetDom m (m.func r).blocks
  rw [← hsame.func_eq] at hentry
  simp only [computeDom, hentry, hsame.flow_eq]

theorem block_forgetDom (m : Module) (bs : List BlockRef) (b : BlockRef) :
    (m.forgetDom bs).block b =
      if b ∈ bs then { m.block b with idom := none, dominees := [] } else m.block b := by
  induction bs generalizing m with
  | nil => rfl
  | cons c bs ih =>
    refine (ih _).trans ?_
    rw [block_modifyBlock]
    by_cases hlt : b < m.blocks.size
    · by_cases hbc : c = b <;> by_cases hb : b ∈ bs <;> simp [hlt, hbc, hb, Ne.symm]
    · have hdefault : m.block b = default := by
        rw [Module.block, Array.getD_eq_getD_getElem?,
          Array.getElem?_eq_none (Nat.le_of_not_lt hlt)]
        rfl
      have hout : ¬ (c = b ∧ b < m.blocks.size) := fun h => hlt h.2
      rw [if_neg hout, hdefault]
      exact (ite_self _).trans (ite_self _).symm

theorem block_record (m : Module) (x : BlockRef × BlockRef) (hlt : b < m.blocks.size) :
    ((m.record x).block b).idom = (if x.1 = b then some x.2 else (m.block b).idom) ∧
      ((m.record x).block b).dominees =
        (m.block b).dominees ++ if x.2 = b then [x.1] else [] := by
  have hsize : (m.modifyBlock x.1 fun y => { y with idom := some x.2 }).blocks.size =
    m.blocks.size := Array.size_modify
  rw [record, block_modifyBlock, block_modifyBlock, hsize]
  by_cases h₁ : x.1 = b <;> by_cases h₂ : x.2 = b <;> simp [h₁, h₂, hlt]

section

variable {ds : List (BlockRef × BlockRef)} (hlt : b < m.blocks.size)

include hlt

/-- Of several records of a block the last one would count, but there is only one. -/
theorem idom_foldl_record (hnodup : (ds.map Prod.fst).Nodup) (hnone : (m.block b).idom = none) :
    ((ds.foldl record m).block b).idom = some d ↔ (b, d) ∈ ds := by
  have hkeep : ∀ (ds : List (BlockRef × BlockRef)) (m : Module), b < m.blocks.size →
      b ∉ ds.map Prod.fst → ((ds.foldl record m).block b).idom = (m.block b).idom := by
    intro ds
    induction ds with
    | nil => exact fun _ _ _ => rfl
    | cons x ds ih =>
      intro m hlt hb
      rw [map_cons, mem_cons, not_or] at hb
      rw [foldl_cons, ih _ (by rwa [(sameCode_record m x).size]) hb.2, (block_record m x hlt).1,
        if_neg (Ne.symm hb.1)]
  induction ds generalizing m with
  | nil => simp [hnone]
  | cons x ds ih =>
    have hlt' : b < (m.record x).blocks.size := by rwa [(sameCode_record m x).size]
    rw [map_cons, nodup_cons] at hnodup
    rw [foldl_cons, mem_cons]
    by_cases hx : x.1 = b
    · rw [hkeep ds _ hlt' (hx ▸ hnodup.1), (block_record m x hlt).1, if_pos hx]
      have hout : (b, d) ∉ ds := fun h => hnodup.1 (hx ▸ mem_map_of_mem (f := Prod.fst) h)
      simp [hout, Prod.ext_iff, hx, eq_comm]
    · have hnone' : ((m.record x).block b).idom = none := by
        rw [(block_record m x hlt).1, if_neg hx, hnone]
      refine (ih hlt' hnodup.2 hnone').trans ?_
      exact ⟨.inr, fun h => h.resolve_left fun h => hx (h ▸ rfl)⟩

theorem dominees_foldl_record : ((ds.foldl record m).block b).dominees =
    (m.block b).dominees ++ (ds.filter fun x => x.2 == b).map Prod.fst := by
  induction ds generalizing m with
  | nil => simp
  | cons x ds ih =>
    rw [foldl_cons, ih (by rwa [(sameCode_record m x).size]), (block_record m x hlt).2]
    by_cases hx : x.2 = b <;> simp [hx]

end

end Module

/-! ## Functions whose edges are known at both ends -/

/-- The blocks of a function that starts in `entry` are there, and edges stay among them and are known
at both ends. -/
structure Linked (m : Module) (r : FuncRef) (entry : BlockRef) : Prop where
  entry_eq : (m.func r).entry = some entry
  entry_mem : entry ∈ (m.func r).blocks
  lt_size : ∀ b ∈ (m.func r).blocks, b < m.blocks.size
  succ : ∀ b ∈ (m.func r).blocks, ∀ s ∈ (m.block b).succs,
    s ∈ (m.func r).blocks ∧ b ∈ (m.block s).preds
  pred : ∀ b ∈ (m.func r).blocks, ∀ p ∈ (m.block b).preds,
    p ∈ (m.func r).blocks ∧ b ∈ (m.block p).succs

namespace Linked

variable {m m' : Module} {r : FuncRef} {entry a b d : BlockRef}

variable (h : Linked m r entry)

include h

/-- No way leads out of the function. -/
theorem mem_of_reachable (hb : (m.flow entry).Reachable b) : b ∈ (m.func r).blocks :=
  hb.induct h.entry_mem fun b _ hb hc => (h.succ b hb _ hc).1

theorem coherent : (m.flow entry).Coherent where
  bounded := m.bounded_flow entry
  succ b c hb hc := (h.succ b (h.mem_of_reachable hb) c hc).2
  pred b p hb hp := (h.pred b (h.mem_of_reachable hb) p hp).2

/-- What is recorded of a block is its closest dominator. -/
theorem idom_iff (hb : b ∈ (m.func r).blocks) : ((m.computeDom r).block b).idom = some d ↔
    (m.flow entry).Reachable b ∧ b ≠ entry ∧ (m.flow entry).Closest d b := by
  have hlt := h.lt_size b hb
  rw [← (Module.sameCode_forgetDom m (m.func r).blocks).size] at hlt
  rw [Module.computeDom_eq h.entry_eq, Module.idom_foldl_record hlt h.coherent.nodup_idoms
    (by rw [Module.block_forgetDom, if_pos hb])]
  exact h.coherent.mem_idoms_iff

/-- The blocks that are recorded below a block are those above which it is recorded. -/
theorem nodup_dominees (hd : d ∈ (m.func r).blocks) :
    ((m.computeDom r).block d).dominees.Nodup ∧ ∀ b, b ∈ ((m.computeDom r).block d).dominees ↔
      b ∈ (m.func r).blocks ∧ ((m.computeDom r).block b).idom = some d := by
  have hlt := h.lt_size d hd
  rw [← (Module.sameCode_forgetDom m (m.func r).blocks).size] at hlt
  have hdominees : ((m.computeDom r).block d).dominees =
      ((m.flow entry).idoms.filter fun x => x.2 == d).map Prod.fst := by
    rw [Module.computeDom_eq h.entry_eq, Module.dominees_foldl_record hlt, Module.block_forgetDom,
      if_pos hd, nil_append]
  refine ⟨?_, fun b => ?_⟩
  · rw [hdominees]
    exact h.coherent.nodup_idoms.sublist (filter_sublist.map _)
  · have hmem : b ∈ ((m.computeDom r).block d).dominees ↔ (b, d) ∈ (m.flow entry).idoms := by
      rw [hdominees]
      simp
    rw [hmem, h.coherent.mem_idoms_iff]
    exact ⟨fun hb => ⟨h.mem_of_reachable hb.1, (h.idom_iff (h.mem_of_reachable hb.1)).mpr hb⟩,
      fun hb => (h.idom_iff hb.1).mp hb.2⟩

/-- A block that can be reached is the entry, or its closest dominator is on record and comes before
it. -/
theorem idom_cases {i : Nat} (hi : (m.flow entry).reversePostOrder[i]? = some b) :
    (b = entry ∧ ((m.computeDom r).block b).idom = none) ∨
      ∃ d j, ((m.computeDom r).block b).idom = some d ∧ (m.flow entry).Closest d b ∧ j < i ∧
        (m.flow entry).reversePostOrder[j]? = some d := by
  have hc := h.coherent
  have hb := hc.reachable hi
  have hidom := fun d => h.idom_iff (d := d) (h.mem_of_reachable hb)
  cases hd : ((m.computeDom r).block b).idom with
  | none =>
    refine .inl ⟨?_, rfl⟩
    by_contra hne
    obtain ⟨d, hcl⟩ := hc.exists_closest hb hne
    exact absurd (hd.symm.trans ((hidom d).mpr ⟨hb, hne, hcl⟩)) (by simp)
  | some d =>
    obtain ⟨-, -, hcl⟩ := (hidom d).mp hd
    obtain ⟨j, hj⟩ := hc.exists_number_of_dominates hb hcl.dominates
    have hle := ((hc.dominates_iff_up hi hj).mp hcl.dominates).le hc.tree
    refine .inr ⟨d, j, rfl, hcl, Nat.lt_of_le_of_ne hle ?_, hj⟩
    rintro rfl
    exact hcl.ne (Option.some.inj (hj.symm.trans hi))

/-- The numbers of blocks stay below the number of steps that a way up the tree may take. -/
theorem exists_number_lt (hb : (m.flow entry).Reachable b) :
    ∃ i < (m.computeDom r).blocks.size + 1, (m.flow entry).reversePostOrder[i]? = some b := by
  obtain ⟨i, hi⟩ := h.coherent.exists_number hb
  refine ⟨i, ?_, hi⟩
  have hbounded := h.coherent.bounded
  have hlength : (m.flow entry).reversePostOrder.length ≤ m.blocks.size := by
    rw [← length_range (n := m.blocks.size)]
    refine (subperm_of_subset (Flow.nodup_reversePostOrder hbounded) fun c hc => ?_).length_le
    exact mem_range.mpr (h.lt_size c (h.mem_of_reachable
      ((Flow.mem_reversePostOrder hbounded c).mp hc)))
  have hlt := (List.getElem?_eq_some_iff.mp hi).1
  rw [(Module.sameCode_computeDom m r).size]
  omega

/-- A way up the recorded tree may take as many steps as the number of its block says. -/
theorem dominatesWithin_iff {fuel i : Nat} (hi : (m.flow entry).reversePostOrder[i]? = some b)
    (hfuel : i < fuel) :
    (m.computeDom r).dominatesWithin a fuel b ↔ (m.flow entry).Dominates a b := by
  induction fuel generalizing b i with
  | zero => omega
  | succ fuel ih =>
    rw [Module.dominatesWithin, Bool.or_eq_true, beq_iff_eq]
    rcases h.idom_cases hi with ⟨rfl, hd⟩ | ⟨d, j, hd, hcl, hji, hj⟩
    · simp only [hd, Option.any_none, Bool.false_eq_true, or_false]
      exact ⟨fun heq => heq ▸ .refl _ _, fun hdom => hdom.eq_entry.symm⟩
    · rw [hd, Option.any_some, ih hj (by omega)]
      constructor
      · rintro (rfl | hdom)
        · exact .refl _ _
        · exact hdom.trans hcl.dominates
      · intro hdom
        by_cases hab : a = b
        · exact .inl hab.symm
        · exact .inr (hcl.above a hab hdom)

/-- The recorded tree decides dominance of blocks that can be reached. -/
theorem dominates_iff (hb : (m.flow entry).Reachable b) :
    (m.computeDom r).dominates a b ↔ (m.flow entry).Dominates a b := by
  obtain ⟨i, hlt, hi⟩ := h.exists_number_lt hb
  exact h.dominatesWithin_iff hi hlt

/-- Dominators are found in any flow graph. The search comes to a standstill; the recorded tree decides
dominance; a block that can be reached has its one closest strict dominator on record, unless it is the
entry, and no other block has any; and a block lists those of which it is the closest dominator. -/
theorem computeDom_dominators :
    (m.flow entry).Settles ∧
    (∀ a b, (m.flow entry).Reachable b →
      ((m.computeDom r).dominates a b = true ↔ (m.flow entry).Dominates a b)) ∧
    (∀ b ∈ (m.func r).blocks, ∀ d, ((m.computeDom r).block b).idom = some d ↔
      (m.flow entry).Reachable b ∧ b ≠ entry ∧ (m.flow entry).Closest d b) ∧
    (∀ b, (m.flow entry).Reachable b → b ≠ entry → ∃! d, (m.flow entry).Closest d b) ∧
    ∀ d ∈ (m.func r).blocks, ((m.computeDom r).block d).dominees.Nodup ∧
      ∀ b, b ∈ ((m.computeDom r).block d).dominees ↔
        b ∈ (m.func r).blocks ∧ ((m.computeDom r).block b).idom = some d := by
  refine ⟨h.coherent.settles, fun a b hb => h.dominates_iff hb, fun b hb d => h.idom_iff hb,
    fun b hb hne => ?_, fun d hd => h.nodup_dominees hd⟩
  obtain ⟨d, hd⟩ := h.coherent.exists_closest hb hne
  exact ⟨d, hd, fun d' hd' => h.coherent.closest_unique hb hd' hd⟩

end Linked

/-- A function in which two blocks lead to each other and are both entered from outside, with a
repeated edge, a block that leads to itself and to the entry, and a block that cannot be reached. -/
def tangle : Module where
  name := "tangle"
  funcs := #[{ name := "f", sig := .func .void [] false, blocks := [0, 1, 2, 3, 4], entry := some 0 }]
  blocks := #[
    { number := 0, func := 0, succs := [1, 2], preds := [3] },
    { number := 1, func := 0, succs := [2, 2], preds := [0, 2] },
    { number := 2, func := 0, succs := [1, 3], preds := [0, 1, 1, 4] },
    { number := 3, func := 0, succs := [3, 0], preds := [2, 3] },
    { number := 4, func := 0, succs := [2] }]

theorem computeDom_dominators_tangle : Linked tangle 0 0 ∧ (tangle.flow 0).Closest 2 3 ∧
    (tangle.flow 0).Closest 0 2 ∧ ¬ (tangle.flow 0).Dominates 1 2 ∧
    ((tangle.computeDom 0).block 4).idom = none := by
  have h : Linked tangle 0 0 := by constructor <;> decide
  obtain ⟨-, hdom, hidom, -⟩ := h.computeDom_dominators
  have h3 := (hidom 3 (by decide) 2).mp (by decide)
  have h2 := (hidom 2 (by decide) 0).mp (by decide)
  exact ⟨h, h3.2.2, h2.2.2, mt (hdom 1 2 h2.1).mpr (by decide), by decide⟩

/-! ## Well-formed functions -/

namespace WellFormed

variable {m : Module} {r : FuncRef} {entry a b : BlockRef}

theorem linked (h : WellFormed m r entry) : Linked m r entry :=
  ⟨h.entry_eq, h.entry_mem, fun _ => h.lt_size, h.succ, h.pred⟩

/-- No way leads out of a well-formed function. -/
theorem mem_of_reachable (h : WellFormed m r entry) (hb : (m.flow entry).Reachable b) :
    b ∈ (m.func r).blocks :=
  h.linked.mem_of_reachable hb

end WellFormed

end SsaCompiler.Ssa
