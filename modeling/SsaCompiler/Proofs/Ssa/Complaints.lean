import Mathlib.Tactic.ByContra
import SsaCompiler.Ssa.Verify

/-!
# Functions without complaints

Verification gives a list of complaints. That the list is empty is the conjunction of what the checks
ask for, check by check.
-/

namespace SsaCompiler.Ssa

open List

variable {α : Type} {xs : List (Option ValueRef)}

namespace Module

/-- A value that belongs to no block and is always there. -/
def IsFree (m : Module) (a : ValueRef) : Prop :=
  (m.value a).block = none ∧ (m.value a).op.isConst

/-- What the values of a block and its end refer to. -/
def operandsIn (m : Module) (b : BlockRef) : List (Option ValueRef) :=
  ((m.block b).values.flatMap fun v => (m.value v).args) ++ (m.block b).controls

/-- `a` is used in block `b`. -/
def UsedIn (m : Module) (b : BlockRef) (a : ValueRef) : Prop :=
  some a ∈ m.operandsIn b

theorem usedIn_iff {m : Module} {b : BlockRef} {a : ValueRef} :
    m.UsedIn b a ↔
      (∃ v ∈ (m.block b).values, some a ∈ (m.value v).args) ∨ some a ∈ (m.block b).controls := by
  rw [UsedIn, operandsIn, mem_append, mem_flatMap]

end Module

/-- How a block may end, by the number of its successors, the types of its operands and the type of
the result of its function. -/
def EndsWell (kind : BlockKind) (succs : Nat) (controls : List (Option Ty)) (result : Ty) : Prop :=
  match kind with
  | .plain => succs = 1
  | .branch => (controls = [some (.int 1)] ∨ controls = [none]) ∧ succs = 2
  | .ret =>
    succs = 0 ∧
      match controls with
      | some t :: _ => t = result
      | _ => result.isVoid
  | .invalid | .unknown => True

namespace Module

variable {m : Module} {r : FuncRef} {f : Func} {entry b : BlockRef} {a v : ValueRef}

/-! ## Lists of complaints -/

/-- A list that is checked member by member, with places, has no complaint exactly if no member
has. -/
theorem filterMap_places_eq_nil {β : Type} {k : Nat × α → Option β} {xs : List α} :
    (places xs).filterMap k = [] ↔ ∀ (i : Nat) x, xs[i]? = some x → k (i, x) = none := by
  rw [filterMap_eq_nil_iff]
  constructor
  · intro h i x hx
    obtain ⟨hi, rfl⟩ := List.getElem?_eq_some_iff.mp hx
    refine h _ (mem_iff_getElem.mpr ⟨i, by simpa [places] using hi, ?_⟩)
    simp [places]
  · rintro h ⟨i, x⟩ hx
    obtain ⟨j, hj, heq⟩ := mem_iff_getElem.mp hx
    simp only [places, getElem_zip, getElem_range, Prod.mk.injEq] at heq
    obtain ⟨rfl, rfl⟩ := heq
    exact h j _ (List.getElem?_eq_getElem _)

theorem filterMap_places_if {β : Type} {p : Nat × α → Bool} {k : Nat × α → β} {xs : List α} :
    ((places xs).filterMap fun x => if p x then some (k x) else none) = [] ↔
      ∀ (i : Nat) x, xs[i]? = some x → p (i, x) = false := by
  rw [filterMap_places_eq_nil]
  simp

theorem forall_getElem? {q : α → Prop} {xs : List α} :
    (∀ (i : Nat) x, xs[i]? = some x → q x) ↔ ∀ x ∈ xs, q x := by
  constructor
  · intro h x hx
    obtain ⟨i, hi⟩ := mem_iff_getElem?.mp hx
    exact h i x hi
  · exact fun h i x hx => h x (mem_of_getElem? hx)

theorem forall_isNone_eq_false : (∀ x ∈ xs, x.isNone = false) ↔ none ∉ xs := by
  constructor
  · exact fun h hnone => Bool.false_ne_true (h none hnone).symm
  · intro h x hx
    cases x with
    | none => exact absurd hx h
    | some x => rfl

/-- Marks say which of the values of a table are in a list. -/
theorem getD_marks (vs : List ValueRef) (n : Nat) (v : ValueRef) :
    (vs.foldl (fun (a : Array Bool) v => a.setIfInBounds v true)
      (Array.replicate n false)).getD v false ↔ v ∈ vs ∧ v < n := by
  have hfold : ∀ (vs : List ValueRef) (a : Array Bool),
      (vs.foldl (fun (a : Array Bool) v => a.setIfInBounds v true) a).getD v false ↔
        a.getD v false ∨ v ∈ vs ∧ v < a.size := by
    intro vs
    induction vs with
    | nil => simp
    | cons w vs ih =>
      intro a
      rw [foldl_cons, ih, Array.size_setIfInBounds]
      by_cases hw : w = v
      · subst hw
        by_cases hlt : w < a.size <;> simp [hlt]
      · simp [hw, Ne.symm hw]
  rw [hfold, Array.size_replicate]
  simp only [Array.getD_eq_getD_getElem?, Array.getElem?_replicate]
  split <;> simp

theorem valueComplaints_eq_nil {name : String} :
    m.valueComplaints name b v = [] ↔
      (m.value v).block = some b ∧
      ((m.value v).type.isVoid && !(m.value v).op.isVoid && (m.value v).op != .call) = false ∧
      none ∉ (m.value v).args ∧
      ((m.value v).op = .phi → (m.value v).args.length = (m.block b).preds.length) ∧
      m.wrongOperands? (m.value v) (((m.value v).args.filterMap id).map m.value) = none := by
  have hall : none ∉ (m.value v).args → (m.value v).args.all Option.isSome := by
    intro h
    rw [all_eq_true]
    intro x hx
    simpa using forall_isNone_eq_false.mpr h x hx
  simp only [valueComplaints, append_eq_nil_iff, and_assoc]
  refine and_congr ?_ (and_congr ?_ ?_)
  · by_cases h : (m.value v).block = some b <;> simp [h]
  · by_cases h : ((m.value v).type.isVoid && !(m.value v).op.isVoid && (m.value v).op != .call)
    · simp [h]
    · simp [h]
  · simp only [filterMap_places_if, forall_getElem?, forall_isNone_eq_false]
    refine and_congr_right fun h => and_congr ?_ ?_
    · by_cases hop : (m.value v).op = .phi
      · simp [hop]
      · simp [hop]
    · rw [if_pos (hall h)]
      cases m.wrongOperands? (m.value v) (((m.value v).args.filterMap id).map m.value) <;> simp

theorem terminatorComplaints_eq_nil :
    m.terminatorComplaints f b = [] ↔
      EndsWell (m.block b).kind (m.block b).succs.length
        ((m.block b).controls.map (Option.map m.typeOf)) f.sig.result := by
  have hcount : ∀ (n k : Nat) (s : String), (if n == k then [] else [s]) = [] ↔ n = k := by
    intro n k s
    by_cases h : n = k <;> simp [h]
  unfold terminatorComplaints EndsWell
  dsimp only
  cases (m.block b).kind with
  | invalid | unknown => simp
  | plain => exact hcount _ _ _
  | branch =>
    rw [append_eq_nil_iff, hcount]
    refine and_congr_left fun _ => ?_
    rcases (m.block b).controls with _ | ⟨_ | c, _ | ⟨d, cs⟩⟩
    · simp
    · simp
    · simp
    · by_cases h : m.typeOf c = .int 1 <;> simp [h]
    · simp
  | ret =>
    rw [append_eq_nil_iff, hcount]
    refine and_congr_right fun _ => ?_
    rcases (m.block b).controls with _ | ⟨_ | c, cs⟩
    · by_cases h : f.sig.result.isVoid <;> simp [h]
    · by_cases h : f.sig.result.isVoid <;> simp [h]
    · by_cases h : m.typeOf c = f.sig.result <;> simp [h]

theorem edgeComplaints_eq_nil :
    m.edgeComplaints f b = [] ↔
      (∀ s ∈ (m.block b).succs, s ∈ f.blocks ∧ b ∈ (m.block s).preds) ∧
      ∀ p ∈ (m.block b).preds, p ∈ f.blocks ∧ b ∈ (m.block p).succs := by
  simp only [edgeComplaints, append_eq_nil_iff, filterMap_eq_nil_iff]
  refine and_congr (forall₂_congr fun s _ => ?_) (forall₂_congr fun p _ => ?_)
  · by_cases hmem : s ∈ f.blocks <;> by_cases hback : b ∈ (m.block s).preds <;> simp [hmem, hback]
  · by_cases hmem : p ∈ f.blocks <;> by_cases hback : b ∈ (m.block p).succs <;> simp [hmem, hback]

theorem foreignComplaints_eq_nil {inFunc : ValueRef → Bool} :
    m.foreignComplaints f inFunc b = [] ↔ ∀ a, m.UsedIn b a → inFunc a := by
  have hcheck : ∀ xs : List (Option ValueRef),
      (∀ x ∈ xs, (x.any fun v => !inFunc v) = false) ↔ ∀ a, some a ∈ xs → inFunc a := by
    intro xs
    constructor
    · intro h a ha
      simpa using h (some a) ha
    · intro h x hx
      cases x with
      | none => rfl
      | some a => simp [h a hx]
  simp only [foreignComplaints, append_eq_nil_iff, flatMap_eq_nil_iff, filterMap_places_if,
    forall_getElem?, hcheck, usedIn_iff]
  constructor
  · rintro ⟨hvalues, hcontrols⟩ a (⟨v, hv, ha⟩ | ha)
    · exact hvalues v hv a ha
    · exact hcontrols a ha
  · exact fun h => ⟨fun v hv a ha => h a (.inl ⟨v, hv, ha⟩), fun a ha => h a (.inr ha)⟩

theorem blockComplaints_eq_nil :
    m.blockComplaints r f b = [] ↔
      (m.block b).kind ≠ .invalid ∧ (m.block b).func = r ∧
      (∀ v ∈ (m.block b).values, m.valueComplaints f.name b v = []) ∧
      m.terminatorComplaints f b = [] ∧ m.edgeComplaints f b = [] ∧
      ((m.block b).kind ≠ .ret → none ∉ (m.block b).controls) := by
  simp only [blockComplaints, append_eq_nil_iff, and_assoc, flatMap_eq_nil_iff]
  refine and_congr ?_ (and_congr ?_ (and_congr_right fun _ => and_congr_right fun _ =>
    and_congr_right fun _ => ?_))
  · by_cases h : (m.block b).kind = .invalid <;> simp [h]
  · by_cases h : (m.block b).func = r <;> simp [h]
  · by_cases hk : (m.block b).kind = .ret
    · simp [hk]
    · simp only [bne_iff_ne.mpr hk, Bool.and_true, filterMap_places_if, forall_getElem?,
        forall_isNone_eq_false]
      exact ⟨fun h _ => h, fun h => h hk⟩

/-- A value that a function may refer to. -/
def Known (m : Module) (r : FuncRef) (a : ValueRef) : Prop :=
  (∃ c ∈ (m.func r).blocks, a ∈ (m.block c).values) ∧ a < m.values.size ∨ m.IsFree a

theorem verify_eq_nil (hentry : (m.func r).entry = some entry) :
    m.verify r = [] ↔
      (m.func r).blocks.head? = some entry ∧ (m.block entry).preds = [] ∧
      (∀ b ∈ (m.func r).blocks, m.blockComplaints r (m.func r) b = []) ∧
      ∀ b ∈ (m.func r).blocks, ∀ a, m.UsedIn b a → m.Known r a := by
  unfold verify
  simp only [hentry]
  by_cases hempty : (m.func r).blocks = []
  · simp [hempty]
  · rw [if_neg (by simpa using hempty)]
    simp only [append_eq_nil_iff, flatMap_eq_nil_iff, and_assoc,
      foreignComplaints_eq_nil, Bool.or_eq_true, Bool.and_eq_true, getD_marks, mem_flatMap,
      Option.isNone_iff_eq_none]
    refine and_congr ?_ (and_congr ?_ Iff.rfl)
    · by_cases h : (m.func r).blocks.head? = some entry <;> simp [h]
    · by_cases h : (m.block entry).preds = [] <;> simp [h]

theorem mem_filterMap_id : a ∈ xs.filterMap id ↔ some a ∈ xs := by
  simp

/-- Values in the blocks of a well-formed function are in the table. -/
theorem lt_size_of_block (h : (m.value v).block = some b) : v < m.values.size := by
  by_contra hlt
  have hdefault : m.value v = default := by
    rw [value, Array.getD_eq_getD_getElem?, Array.getElem?_eq_none (Nat.le_of_not_lt hlt)]
    rfl
  rw [hdefault] at h
  exact absurd h (by simp [show (default : Value).block = none from rfl])

end Module

end SsaCompiler.Ssa
