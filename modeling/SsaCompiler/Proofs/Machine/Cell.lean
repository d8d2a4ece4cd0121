import SsaCompiler.Proofs.Machine.Word

/-!
# Cells

The objects in memory that hold a single integer. A cell is named by the place of its segment. A load
from a cell gives what was stored there last, whatever has happened to other cells in the meantime.
-/

namespace SsaCompiler.Machine.Memory

variable {m m' m'' : Memory} {k j bits base : Nat}

/-! ## Bytes and numbers -/

theorem byte_insert (m : Memory) (a c : Nat) (x : UInt8) :
    byte { m with bytes := m.bytes.insert a x } c = if a = c then x else m.byte c := by
  unfold byte
  rw [Std.HashMap.getD_insert]
  simp

theorem segments_setNumber (m : Memory) (a x n : Nat) :
    (m.setNumber a x n).segments = m.segments := by
  induction n generalizing m a x with
  | zero => rfl
  | succ n ih => exact ih ..

theorem byte_setNumber {a x n c : Nat} (hc : c < a ∨ a + n ≤ c) :
    (m.setNumber a x n).byte c = m.byte c := by
  induction n generalizing m a x with
  | zero => rfl
  | succ n ih =>
    unfold setNumber
    rw [ih (by omega), byte_insert, if_neg (by omega)]

theorem number_congr {a n : Nat} (h : ∀ c, a ≤ c → c < a + n → m'.byte c = m.byte c) :
    m'.number a n = m.number a n := by
  induction n generalizing a with
  | zero => rfl
  | succ n ih =>
    unfold number
    rw [h a (Nat.le_refl a) (by omega), ih fun c hlo hhi => h c (by omega) (by omega)]

/-- A number that has been written is read, cut to its bytes. -/
theorem number_setNumber (a x n : Nat) : (m.setNumber a x n).number a n = x % 256 ^ n := by
  induction n generalizing m a x with
  | zero => simp [number, Nat.mod_one]
  | succ n ih =>
    unfold setNumber number
    rw [ih, byte_setNumber (.inl (Nat.lt_succ_self a)), byte_insert, if_pos rfl,
      Nat.pow_succ', Nat.mod_mul]
    congr 1
    rw [UInt8.toNat_ofNat_of_lt' (Nat.mod_lt x (by decide))]

/-! ## Addresses -/

/-- The first byte of a segment. -/
def place (k : Nat) : Nat :=
  (k + 1) * offsetSpace

theorem toNat_startOf (hk : k + 1 < 2 ^ 32) : (startOf (k + 1)).toNat = place k := by
  refine UInt64.toNat_ofNat_of_lt' ?_
  show (k + 1) * 2 ^ 32 < 2 ^ 64
  omega

theorem segmentOf_startOf (hk : k + 1 < 2 ^ 32) : segmentOf (startOf (k + 1)) = k + 1 := by
  unfold segmentOf
  rw [toNat_startOf hk]
  exact Nat.mul_div_cancel _ (by decide)

theorem offsetOf_startOf (hk : k + 1 < 2 ^ 32) : offsetOf (startOf (k + 1)) = 0 := by
  unfold offsetOf
  rw [toNat_startOf hk]
  exact Nat.mul_mod_left ..

theorem startOf_ne_zero (hk : k + 1 < 2 ^ 32) : startOf (k + 1) ≠ 0 := by
  intro h
  have := congrArg segmentOf h
  rw [segmentOf_startOf hk] at this
  exact absurd this (by simp [segmentOf])

/-! ## Cells -/

/-- How many bytes an integer takes. -/
def bytesOf (bits : Nat) : Nat :=
  (bits + 7) / 8

theorem toNat_size_int (bits : Nat) : (Ssa.Ty.int bits).size.toNat = bytesOf bits := by
  simp only [Ssa.Ty.size, bytesOf]
  omega

/-- The segment is live, and an integer fits into it. -/
def IsCell (m : Memory) (k bits : Nat) : Prop :=
  ∃ s, m.segments[k]? = some s ∧ s.live ∧ bytesOf bits ≤ s.size

/-- What the cell holds. -/
def content (m : Memory) (k bits : Nat) : Word :=
  Word.wrap bits (UInt64.ofNat (m.number (place k) (intWidth (Ssa.Ty.int bits).size)))

theorem IsCell.lt_size (h : m.IsCell k bits) : k < m.segments.size := by
  obtain ⟨s, hs, -, -⟩ := h
  exact (Array.getElem?_eq_some_iff.mp hs).1

theorem IsCell.congr (h : m.IsCell k bits) (hs : m'.segments[k]? = m.segments[k]?) :
    m'.IsCell k bits := by
  obtain ⟨s, hk, hlive, hsize⟩ := h
  exact ⟨s, hs.trans hk, hlive, hsize⟩

theorem IsCell.access (h : m.IsCell k bits) (hk : k + 1 < 2 ^ 32) :
    m.access (startOf (k + 1)) (Ssa.Ty.int bits).size.toNat = .ok () := by
  obtain ⟨s, hs, hlive, hsize⟩ := h
  have hseg : m.segment (startOf (k + 1)) = .ok s := by
    unfold segment
    rw [if_neg (by simpa using startOf_ne_zero hk), segmentOf_startOf hk]
    simp [hs, hlive]
  unfold Memory.access
  rw [hseg, toNat_size_int, offsetOf_startOf hk]
  simp [bind, Except.bind, hsize]

theorem IsCell.load (h : m.IsCell k bits) (hk : k + 1 < 2 ^ 32) :
    m.load (startOf (k + 1)) (.int bits) = .ok (m.content k bits) := by
  unfold Memory.load
  rw [h.access hk, toNat_startOf hk]
  rfl

/-- The memory with another content of a cell. -/
def withContent (m : Memory) (k bits : Nat) (x : Word) : Memory :=
  m.setNumber (place k) x.toNat (intWidth (Ssa.Ty.int bits).size)

theorem segments_withContent (m : Memory) (k bits : Nat) (x : Word) :
    (m.withContent k bits x).segments = m.segments :=
  m.segments_setNumber ..

theorem IsCell.store (h : m.IsCell k bits) (hk : k + 1 < 2 ^ 32) (x : Word) :
    m.store (startOf (k + 1)) (.int bits) x = .ok (m.withContent k bits x) := by
  unfold Memory.store
  rw [h.access hk, toNat_startOf hk]
  rfl

/-- Cutting a word to the bytes of an integer does not change the integer. -/
theorem wrap_bytes {p : Primitive} (hp : p.isPlain) (x : Word) :
    Word.wrap p.bits (UInt64.ofNat (x.toNat % 256 ^ intWidth (Ssa.Ty.int p.bits).size)) =
      x.wrap p.bits := by
  have hcut : ∀ {n : Nat}, n ≤ 2 ^ 64 → 0 < n → (UInt64.ofNat (x.toNat % n)).toNat = x.toNat % n :=
    fun hn hpos => UInt64.toNat_ofNat_of_lt' (Nat.lt_of_lt_of_le (Nat.mod_lt _ hpos) hn)
  cases p with
  | bool =>
    refine UInt64.toNat_inj.mp ?_
    show (UInt64.ofNat (x.toNat % 256) &&& 1).toNat = (x &&& 1).toNat
    rw [UInt64.toNat_and, UInt64.toNat_and, hcut (by decide) (by decide)]
    show (x.toNat % 256) &&& 1 = x.toNat &&& 1
    rw [Nat.and_one_is_mod, Nat.and_one_is_mod, Nat.mod_mod_of_dvd _ (by decide)]
  | byte =>
    have h : (UInt64.ofNat (x.toNat % 256)).toUInt8 = x.toUInt8 := by
      refine UInt8.toNat_inj.mp ?_
      rw [UInt64.toNat_toUInt8, UInt64.toNat_toUInt8, hcut (by decide) (by decide)]
      exact Nat.mod_mod_of_dvd _ (by decide)
    exact congrArg (fun y : UInt8 => y.toInt8.toInt64.toUInt64) h
  | short =>
    have h : (UInt64.ofNat (x.toNat % 65536)).toUInt16 = x.toUInt16 := by
      refine UInt16.toNat_inj.mp ?_
      rw [UInt64.toNat_toUInt16, UInt64.toNat_toUInt16, hcut (by decide) (by decide)]
      exact Nat.mod_mod_of_dvd _ (by decide)
    exact congrArg (fun y : UInt16 => y.toInt16.toInt64.toUInt64) h
  | int =>
    have h : (UInt64.ofNat (x.toNat % 4294967296)).toUInt32 = x.toUInt32 := by
      refine UInt32.toNat_inj.mp ?_
      rw [UInt64.toNat_toUInt32, UInt64.toNat_toUInt32, hcut (by decide) (by decide)]
      exact Nat.mod_mod_of_dvd _ (by decide)
    exact congrArg (fun y : UInt32 => y.toInt32.toInt64.toUInt64) h
  | long =>
    show UInt64.ofNat (x.toNat % 18446744073709551616) = x
    rw [Nat.mod_eq_of_lt x.toNat_lt]
    exact UInt64.ofNat_toNat
  | _ => exact absurd hp (by decide)

/-- A value of a plain type is found again in the cell where it was stored. -/
theorem content_withContent_self {p : Primitive} {n : Int} (hp : p.isPlain) (hn : p.Holds n) :
    (m.withContent k p.bits (Word.ofInt n)).content k p.bits = Word.ofInt n := by
  unfold content withContent
  rw [number_setNumber, wrap_bytes hp, Word.wrap_ofInt_of_holds hp hn]

theorem intWidth_le (size : Int) : intWidth size ≤ 8 := by
  unfold intWidth
  split
  · decide
  · split
    · decide
    · split <;> decide

theorem place_add_eight_le (h : k < j) : place k + 8 ≤ place j := by
  unfold place offsetSpace
  omega

theorem content_withContent_of_ne {x : Word} {bits' : Nat} (h : k ≠ j) :
    (m.withContent k bits x).content j bits' = m.content j bits' := by
  unfold content withContent
  rw [number_congr fun c hlo hhi => byte_setNumber ?_]
  have hw := intWidth_le (Ssa.Ty.int bits).size
  have hw' := intWidth_le (Ssa.Ty.int bits').size
  rcases Nat.lt_or_gt_of_ne h with h | h
  · have := place_add_eight_le h
    omega
  · have := place_add_eight_le h
    omega

/-! ## Making and releasing cells -/

/-- The memory with a new segment for an integer. -/
def withCell (m : Memory) (bits : Nat) : Memory :=
  { m with segments := m.segments.push ⟨bytesOf bits, .stack, true⟩ }

theorem alloc_int (m : Memory) (hbits : bits ≤ 64) :
    m.alloc (Number.wrap64 (1 * (Ssa.Ty.int bits).size)) .stack =
      .ok (startOf (m.segments.size + 1), m.withCell bits) := by
  have hsize : Number.wrap64 (1 * (Ssa.Ty.int bits).size) = bytesOf bits := by
    simp only [Ssa.Ty.size, bytesOf, Int.one_mul]
    rw [Number.wrap64_of_fits (by omega) (by omega)]
    omega
  have hle : bytesOf bits ≤ 8 := by
    unfold bytesOf
    omega
  unfold alloc
  rw [hsize, if_neg]
  · rfl
  · have : ¬((bytesOf bits : Int) < 0) ∧ ¬((offsetSpace : Int) ≤ bytesOf bits) := by
      unfold offsetSpace
      omega
    simp [this.1, this.2]

theorem isCell_withCell_self (m : Memory) (bits : Nat) :
    (m.withCell bits).IsCell m.segments.size bits :=
  ⟨⟨bytesOf bits, .stack, true⟩, Array.getElem?_push_size, rfl, Nat.le_refl _⟩

theorem content_withCell (m : Memory) (bits k j : Nat) :
    (m.withCell bits).content k j = m.content k j := by
  unfold content
  rw [number_congr fun c _ _ => ?_]
  rfl

theorem release_of_segmentOf {a : Word} (h : segmentOf a = k + 1) : m.release a =
    { m with segments := m.segments.modify k fun s => { s with live := false } } := by
  unfold release
  rw [h]

/-- The objects in front of segment `base` are the same. -/
structure Keeps (base : Nat) (m m' : Memory) : Prop where
  size : m.segments.size ≤ m'.segments.size
  segment : ∀ k < base, m'.segments[k]? = m.segments[k]?
  byte : ∀ c < place base, m'.byte c = m.byte c

namespace Keeps

theorem refl (base : Nat) (m : Memory) : Keeps base m m :=
  ⟨Nat.le_refl _, fun _ _ => rfl, fun _ _ => rfl⟩

theorem trans (h : Keeps base m m') (h' : Keeps base m' m'') : Keeps base m m'' :=
  ⟨Nat.le_trans h.size h'.size, fun k hk => (h'.segment k hk).trans (h.segment k hk),
    fun c hc => (h'.byte c hc).trans (h.byte c hc)⟩

theorem mono {base' : Nat} (h : Keeps base m m') (hle : base' ≤ base) : Keeps base' m m' := by
  refine ⟨h.size, fun k hk => h.segment k (Nat.lt_of_lt_of_le hk hle), fun c hc => h.byte c ?_⟩
  exact Nat.lt_of_lt_of_le hc (Nat.mul_le_mul_right _ (Nat.succ_le_succ hle))

theorem isCell (h : Keeps base m m') (hk : k < base) (hc : m.IsCell k bits) : m'.IsCell k bits :=
  hc.congr (h.segment k hk)

theorem content (h : Keeps base m m') (hk : k < base) : m'.content k bits = m.content k bits := by
  unfold Memory.content
  rw [number_congr fun c _ hhi => h.byte c ?_]
  have := intWidth_le (Ssa.Ty.int bits).size
  have := place_add_eight_le hk
  omega

theorem withContent {x : Word} (hk : base ≤ k) : Keeps base m (m.withContent k bits x) := by
  refine ⟨Nat.le_of_eq (congrArg _ (segments_withContent ..).symm), fun j _ => ?_, fun c hc => ?_⟩
  · rw [segments_withContent]
  · refine byte_setNumber (.inl (Nat.lt_of_lt_of_le hc ?_))
    exact Nat.mul_le_mul_right _ (Nat.succ_le_succ hk)

theorem withCell (h : base ≤ m.segments.size) : Keeps base m (m.withCell bits) := by
  refine ⟨?_, fun k hk => ?_, fun _ _ => rfl⟩
  · show _ ≤ (m.segments.push _).size
    rw [Array.size_push]
    exact Nat.le_succ _
  · show (m.segments.push _)[k]? = _
    rw [Array.getElem?_push, if_neg (by omega)]

theorem release (hk : base ≤ k) (hlt : k + 1 < 2 ^ 32) :
    Keeps base m (m.release (startOf (k + 1))) := by
  rw [release_of_segmentOf (segmentOf_startOf hlt)]
  refine ⟨Nat.le_of_eq (Array.size_modify ..).symm, fun j hj => ?_, fun _ _ => rfl⟩
  rw [Array.getElem?_modify, if_neg (by omega)]

end Keeps

end SsaCompiler.Machine.Memory
