import SsaCompiler.Proofs.Machine.History

/-!
# Accesses through element pointers

The address of an element is a sum of words. An address is the number of a segment and an offset of
32 bits, so a displacement of 32 bits or more, and a negative one, moves the number of the segment.
So does a number of a segment that does not fit its 32 bits. What is accessed then is whatever object
has the new number: the access is refused if there is none, if it has been released or if the
remaining offset lies outside it, and succeeds otherwise.
-/

namespace SsaCompiler.Machine.Memory

variable {m : Memory} {k n : Nat} {q : Int} {s : Segment} {t : Ssa.Ty}

/-! ## Addresses of elements -/

theorem toNat_startOf_add (k : Nat) (q : Int) :
    ((startOf (k + 1) + Word.ofInt q).toNat : Int) = ((k + 1) * 2 ^ 32 + q) % 2 ^ 64 := by
  have hstart : (startOf (k + 1)).toNat = (k + 1) * 2 ^ 32 % 2 ^ 64 := UInt64.toNat_ofNat' ..
  have hword : (Word.ofInt q).toNat = (q % 2 ^ 64).toNat := by
    refine UInt64.toNat_ofNat_of_lt' ?_
    show (q % 2 ^ 64).toNat < 2 ^ 64
    omega
  rw [UInt64.toNat_add, hstart, hword]
  omega

/-- The displacement is added to the number of the segment, as far as it does not fit an offset. -/
theorem segmentOf_startOf_add (k : Nat) (q : Int) :
    (segmentOf (startOf (k + 1) + Word.ofInt q) : Int) = (k + 1 + q / 2 ^ 32) % 2 ^ 32 := by
  have h := toNat_startOf_add k q
  have hdiv : segmentOf (startOf (k + 1) + Word.ofInt q) =
      (startOf (k + 1) + Word.ofInt q).toNat / 2 ^ 32 := rfl
  omega

theorem offsetOf_startOf_add (k : Nat) (q : Int) :
    (offsetOf (startOf (k + 1) + Word.ofInt q) : Int) = q % 2 ^ 32 := by
  have h := toNat_startOf_add k q
  have hmod : offsetOf (startOf (k + 1) + Word.ofInt q) =
      (startOf (k + 1) + Word.ofInt q).toNat % 2 ^ 32 := rfl
  omega

/-! ## Accesses -/

/-- `n` bytes at displacement `q` lie inside an object of the given size. -/
def Inside (size n : Nat) (q : Int) : Prop :=
  0 ≤ q ∧ q + n ≤ size

/-- The number of segment `k` or the displacement does not fit its bits, and `n` bytes at what remains
of the displacement lie inside the live object that the address leads to. -/
def Strays (m : Memory) (k n : Nat) (q : Int) : Prop :=
  ¬ (k + 1 < 2 ^ 32 ∧ q / 2 ^ 32 = 0) ∧
    ∃ (j : Nat) (s : Segment), (j + 1 : Int) = (k + 1 + q / 2 ^ 32) % 2 ^ 32 ∧
    m.segments[j]? = some s ∧ s.live ∧ Inside s.size n (q % 2 ^ 32)

theorem access_element_iff :
    m.access (startOf (k + 1) + Word.ofInt q) n = .ok () ↔
      ∃ (j : Nat) (s : Segment), (j + 1 : Int) = (k + 1 + q / 2 ^ 32) % 2 ^ 32 ∧
        m.segments[j]? = some s ∧ s.live ∧ Inside s.size n (q % 2 ^ 32) := by
  have hsegment := segmentOf_startOf_add k q
  have hoffset := offsetOf_startOf_add k q
  rw [access_eq_ok]
  constructor
  · rintro ⟨s, hs, hle⟩
    obtain ⟨j, hj, hs, hlive⟩ := segment_eq_ok.mp hs
    exact ⟨j, s, by omega, hs, hlive, by omega, by omega⟩
  · rintro ⟨j, s, hj, hs, hlive, -, hle⟩
    exact ⟨s, segment_eq_ok.mpr ⟨j, by omega, hs, hlive⟩, by omega⟩

/-- An access to an element succeeds inside the object, and where it strays into another one. -/
theorem access_element_iff_inside_or_strays (hs : m.segments[k]? = some s) (hlive : s.live)
    (hsize : s.size < 2 ^ 32) :
    m.access (startOf (k + 1) + Word.ofInt q) n = .ok () ↔
      (k + 1 < 2 ^ 32 ∧ Inside s.size n q) ∨ m.Strays k n q := by
  rw [access_element_iff]
  by_cases hfit : k + 1 < 2 ^ 32 ∧ q / 2 ^ 32 = 0
  · obtain ⟨hk, hq⟩ := hfit
    have hmod : q % 2 ^ 32 = q := by omega
    simp only [Strays, hk, hq, hmod, and_self, not_true, false_and, true_and, or_false]
    constructor
    · rintro ⟨j, s', hj, hs', -, hinside⟩
      obtain rfl : j = k := by omega
      rw [hs, Option.some.injEq] at hs'
      rwa [hs']
    · intro hinside
      exact ⟨k, s, by omega, hs, hlive, hinside⟩
  · have hout : ¬ (k + 1 < 2 ^ 32 ∧ Inside s.size n q) := by
      unfold Inside
      omega
    simp only [Strays, hout, hfit, not_false_eq_true, true_and, false_or]

/-! ## Loads and stores -/

/-- Types whose values fit a register. -/
def FitsRegister : Ssa.Ty → Prop
  | .int _ | .float | .double | .pointer _ => True
  | _ => False

theorem load_succeeds_iff {addr : Word} (ht : FitsRegister t) :
    (∃ x, m.load addr t = .ok x) ↔ m.access addr t.size.toNat = .ok () := by
  unfold load
  cases h : m.access addr t.size.toNat with
  | error fault => simp [bind, Except.bind]
  | ok _ => cases t <;> simp_all [bind, Except.bind, FitsRegister]

theorem store_succeeds_iff {addr x : Word} (ht : FitsRegister t) :
    (∃ m', m.store addr t x = .ok m') ↔ m.access addr t.size.toNat = .ok () := by
  unfold store
  cases h : m.access addr t.size.toNat with
  | error fault => simp [bind, Except.bind]
  | ok _ => cases t <;> simp_all [bind, Except.bind, FitsRegister]

theorem compute_element {v : Ssa.Value} (hop : v.op = .elemPtr) (htype : v.type = .pointer t)
    (first : Ssa.Ty) (p i : Word) :
    compute v first [p, i] = .ok (p + Word.ofInt (i.signed * t.size)) := by
  unfold compute
  simp [hop, htype, Ssa.Ty.elem?]

/-- Loads and stores of elements succeed inside the object that the pointer was computed from, and
where the displacement leads into another one. -/
theorem element_succeeds_iff {v : Ssa.Value} {t : Ssa.Ty} (hs : m.segments[k]? = some s)
    (hlive : s.live = true) (hsize : s.size < 2 ^ 32) (hop : v.op = .elemPtr)
    (htype : v.type = .pointer t) (ht : FitsRegister t) (first : Ssa.Ty) (i : Word) :
    ∃ addr, compute v first [startOf (k + 1), i] = .ok addr ∧
      ((∃ x, m.load addr t = .ok x) ↔
        (k + 1 < 2 ^ 32 ∧ Inside s.size t.size.toNat (i.signed * t.size)) ∨
          m.Strays k t.size.toNat (i.signed * t.size)) ∧
      ∀ x, (∃ m', m.store addr t x = .ok m') ↔
        (k + 1 < 2 ^ 32 ∧ Inside s.size t.size.toNat (i.signed * t.size)) ∨
          m.Strays k t.size.toNat (i.signed * t.size) := by
  have haccess := access_element_iff_inside_or_strays (n := t.size.toNat)
    (q := i.signed * t.size) hs hlive hsize
  refine ⟨_, compute_element hop htype first _ i, ?_, fun x => ?_⟩
  · rw [load_succeeds_iff ht, haccess]
  · rw [store_succeeds_iff ht, haccess]

/-- Two objects for an integer each. -/
def twoCells : Memory :=
  { segments := #[⟨4, .stack, true⟩, ⟨4, .stack, true⟩] }

/-- A pointer to an element of an array of integers. -/
def cellElement : Ssa.Value :=
  { (default : Ssa.Value) with op := .elemPtr, type := .pointer (.int 32) }

theorem element_succeeds_twoCells :
    ∃ addr, compute cellElement (.pointer (.int 32)) [startOf 1, 1] = .ok addr ∧
      ((∃ x, twoCells.load addr (.int 32) = .ok x) ↔
        (0 + 1 < 2 ^ 32 ∧ Inside 4 4 4) ∨ twoCells.Strays 0 4 4) ∧
      ∀ x, (∃ m', twoCells.store addr (.int 32) x = .ok m') ↔
        (0 + 1 < 2 ^ 32 ∧ Inside 4 4 4) ∨ twoCells.Strays 0 4 4 :=
  element_succeeds_iff (k := 0) (s := ⟨4, .stack, true⟩) (t := .int 32) rfl rfl (by decide) rfl rfl
    trivial _ 1

/-- An index of 2 ^ 30 in the first object leads into the second one. -/
theorem element_strays_twoCells :
    ∃ addr x, compute cellElement (.pointer (.int 32)) [startOf 1, 1073741824] = .ok addr ∧
      twoCells.load addr (.int 32) = .ok x ∧
      ¬ Inside 4 4 ((1073741824 : Word).signed * (Ssa.Ty.int 32).size) := by
  have hq : (1073741824 : Word).signed * (Ssa.Ty.int 32).size = 2 ^ 32 := by decide
  have haccess : twoCells.access (startOf 1 + Word.ofInt (2 ^ 32)) 4 = .ok () :=
    (access_element_iff (k := 0)).mpr
      ⟨1, ⟨4, .stack, true⟩, by decide, rfl, rfl, by decide, by decide⟩
  obtain ⟨x, hx⟩ := (load_succeeds_iff (t := .int 32) trivial).mpr haccess
  refine ⟨_, x, compute_element rfl rfl _ _ _, ?_, ?_⟩
  · rw [hq]
    exact hx
  · rw [hq]
    exact fun h => absurd h.2 (by decide)

end SsaCompiler.Machine.Memory
