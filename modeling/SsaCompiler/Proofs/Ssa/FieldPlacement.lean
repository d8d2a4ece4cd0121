import Mathlib.Algebra.Ring.Int.Defs
import Mathlib.Algebra.Ring.Nat
import SsaCompiler.Machine.Memory

/-!
# Placement of fields

Sizes and offsets are computed in words. As long as the exact size of a type fits, no sum and no product
on the way to it wraps, so the layout can be read off from exact numbers: alignments are powers of two,
every field stands at the next multiple of its alignment behind the one in front of it, and the whole
ends behind the last field. A size that does not fit is never the exact one.
-/

namespace SsaCompiler.Ssa.Ty

open List
open Machine (Memory)
open Number (wrap64 wrap64_of_fits)

/-- Types of data: numbers, addresses, and arrays and structures of data. -/
inductive IsData : Ty → Prop
  | int {n : Nat} (width : n = 1 ∨ n = 8 ∨ n = 16 ∨ n = 32 ∨ n = 64) : IsData (.int n)
  | float : IsData .float
  | double : IsData .double
  | pointer (t : Ty) : IsData (.pointer t)
  | array {n : Int} {t : Ty} (len : 0 ≤ n) (elem : IsData t) : IsData (.array n t)
  | struct {ts : List Ty} (fields : ∀ f ∈ ts, IsData f) : IsData (.struct ts)

/-- The next multiple of `a` from `x` on, whether or not a word can hold it. -/
def roundUp (x a : Int) : Int :=
  (x + a - 1) / a * a

mutual

/-- How many bytes an object of the type takes, whether or not a word can hold the number. -/
def extent : Ty → Int
  | .void => 0
  | .int n => (n + 7) / 8
  | .float => 4
  | .double | .pointer _ | .func .. => 8
  | .array n t => n * extent t
  | .struct ts => roundUp (extentFrom 0 ts) (fieldsAlign 1 ts)

/-- Where fields end that start behind `x`. -/
def extentFrom (x : Int) : List Ty → Int
  | [] => x
  | t :: ts => extentFrom (roundUp x t.align + extent t) ts

end

/-- What can be relied on when the parts of an object are accessed. -/
structure IsLaidOut (t : Ty) : Prop where
  size : t.size = t.extent
  power : ∃ k : Nat, t.align = 2 ^ k
  multiple : t.align ∣ t.size
  field : ∀ {i f}, t.fields[i]? = some f →
    f.align ∣ t.offset i ∧ f.align ∣ t.align ∧ 0 ≤ t.offset i ∧ t.offset i + f.size ≤ t.size
  padding : ∀ {i f g}, t.fields[i]? = some f → t.fields[i + 1]? = some g →
    t.offset (i + 1) < t.offset i + f.size + g.align
  apart : ∀ {i j f g}, t.fields[i]? = some f → t.fields[j]? = some g → i < j →
    t.offset i + f.size ≤ t.offset j
  element : ∀ {n e i j}, t = .array n e → 0 ≤ i → i < j → j < n →
    i * e.size + e.size ≤ j * e.size ∧ j * e.size + e.size ≤ t.size

/-- The alignments of data. -/
def IsAlignment (a : Int) : Prop :=
  a = 1 ∨ a = 2 ∨ a = 4 ∨ a = 8

variable {a b x : Int} {t f g : Ty} {ts us : List Ty} {i j : Nat}

namespace IsAlignment

theorem dvd (ha : IsAlignment a) (hb : IsAlignment b) (h : a ≤ b) : a ∣ b := by
  rcases ha with rfl | rfl | rfl | rfl <;> rcases hb with rfl | rfl | rfl | rfl <;> omega

theorem power (ha : IsAlignment a) : ∃ k : Nat, a = 2 ^ k := by
  rcases ha with rfl | rfl | rfl | rfl
  · exact ⟨0, rfl⟩
  · exact ⟨1, rfl⟩
  · exact ⟨2, rfl⟩
  · exact ⟨3, rfl⟩

theorem roundUp (ha : IsAlignment a) (x : Int) :
    x ≤ roundUp x a ∧ Ty.roundUp x a < x + a ∧ a ∣ Ty.roundUp x a := by
  refine ⟨?_, ?_, Int.dvd_mul_left _ _⟩ <;> unfold Ty.roundUp <;>
    rcases ha with rfl | rfl | rfl | rfl <;> omega

theorem alignUp (ha : IsAlignment a) (hx : 0 ≤ x) (h : Ty.roundUp x a < 2 ^ 63) :
    alignUp x a = Ty.roundUp x a := by
  have hsum : 0 ≤ x + a - 1 ∧ x + a - 1 < 2 ^ 63 := by
    unfold Ty.roundUp at h
    rcases ha with rfl | rfl | rfl | rfl <;> omega
  have hword : wrap64 (x + a - 1) = x + a - 1 := wrap64_of_fits (by omega) hsum.2
  rw [Ssa.alignUp, hword, Int.tdiv_eq_ediv_of_nonneg hsum.1]
  exact wrap64_of_fits (Int.le_trans (by omega) (ha.roundUp x).1) h

end IsAlignment

/-- What is known of a type of data before its fields are looked at. -/
structure IsSized (t : Ty) : Prop where
  align : IsAlignment t.align
  nonneg : 0 ≤ t.extent
  multiple : t.align ∣ t.extent
  exact : t.extent < 2 ^ 63 → t.size = t.extent

/-! ## Fields -/

theorem fieldsAlign_spec (h : ∀ f ∈ ts, f.IsSized) (ha : IsAlignment a) :
    IsAlignment (fieldsAlign a ts) ∧ a ≤ fieldsAlign a ts ∧ ∀ f ∈ ts, f.align ≤ fieldsAlign a ts := by
  induction ts generalizing a with
  | nil => exact ⟨ha, Int.le_refl a, by simp⟩
  | cons t ts ih =>
    obtain ⟨ht, hts⟩ := forall_mem_cons.mp h
    have hmax : IsAlignment (max a t.align) := by
      rcases Int.le_total a t.align with hle | hle
      · rw [Int.max_eq_right hle]
        exact ht.align
      · rwa [Int.max_eq_left hle]
    obtain ⟨hall, hle, hmem⟩ := ih hts hmax
    rw [fieldsAlign]
    exact ⟨hall, by omega, forall_mem_cons.mpr ⟨by omega, hmem⟩⟩

theorem le_extentFrom (h : ∀ f ∈ ts, f.IsSized) (x : Int) : x ≤ extentFrom x ts := by
  induction ts generalizing x with
  | nil => exact Int.le_refl x
  | cons t ts ih =>
    obtain ⟨ht, hts⟩ := forall_mem_cons.mp h
    have hround := (ht.align.roundUp x).1
    have hrest := ih hts (roundUp x t.align + t.extent)
    have hnonneg := ht.nonneg
    rw [extentFrom]
    omega

theorem extentFrom_append (ts us : List Ty) (x : Int) :
    extentFrom x (ts ++ us) = extentFrom (extentFrom x ts) us := by
  induction ts generalizing x with
  | nil => rfl
  | cons t ts ih =>
    rw [cons_append, extentFrom, extentFrom, ih]

/-- Fields that start behind an offset and end at a number that fits. -/
structure Fits (x : Int) (ts : List Ty) : Prop where
  sized : ∀ f ∈ ts, f.IsSized
  nonneg : 0 ≤ x
  fits : extentFrom x ts < 2 ^ 63

namespace Fits

/-- The first field is where it should be, and the others start behind it. -/
theorem first (h : Fits x (t :: ts)) :
    alignUp x t.align = roundUp x t.align ∧ t.size = t.extent ∧
      wrap64 (alignUp x t.align + t.size) = roundUp x t.align + t.extent ∧
      Fits (roundUp x t.align + t.extent) ts := by
  obtain ⟨ht, hts⟩ := forall_mem_cons.mp h.sized
  have hfits := h.fits
  rw [extentFrom] at hfits
  have hround := (ht.align.roundUp x).1
  have hrest := le_extentFrom hts (roundUp x t.align + t.extent)
  have hx := h.nonneg
  have hnonneg := ht.nonneg
  have hstart := ht.align.alignUp hx (by omega)
  have hsize := ht.exact (by omega)
  rw [hstart, hsize]
  exact ⟨rfl, rfl, wrap64_of_fits (by omega) (by omega), hts, by omega, hfits⟩

theorem fieldsEnd (h : Fits x ts) : fieldsEnd x ts = extentFrom x ts := by
  induction ts generalizing x with
  | nil => rfl
  | cons t ts ih =>
    unfold Ty.fieldsEnd
    rw [h.first.2.2.1, extentFrom]
    exact ih h.first.2.2.2

/-- A field stands at the next multiple of its alignment behind the fields in front of it. -/
theorem offset (h : Fits x ts) (hf : ts[i]? = some f) :
    (extentFrom x (ts.take i) ≤ fieldOffset x ts i ∧
      fieldOffset x ts i < extentFrom x (ts.take i) + f.align ∧ f.align ∣ fieldOffset x ts i) ∧
      extentFrom x (ts.take (i + 1)) = fieldOffset x ts i + f.size := by
  induction ts generalizing x i with
  | nil => simp at hf
  | cons t ts ih =>
    obtain ⟨hstart, hsize, hend, hrest⟩ := h.first
    unfold fieldOffset
    cases i with
    | zero =>
      cases hf
      simp only [hstart, hsize]
      exact ⟨(h.sized _ mem_cons_self).align.roundUp x, rfl⟩
    | succ i =>
      simp only [hend]
      exact ih hrest hf

theorem take_le (h : Fits x ts) (hij : i ≤ j) :
    extentFrom x (ts.take i) ≤ extentFrom x (ts.take j) := by
  rw [← take_append_drop i (ts.take j), take_take, Nat.min_eq_left hij, extentFrom_append]
  exact le_extentFrom (fun f hf => h.sized f (mem_of_mem_take (mem_of_mem_drop hf))) _

end Fits

/-! ## Types -/

theorem IsData.isSized (h : t.IsData) : t.IsSized := by
  induction h with
  | @int n width =>
    have heq : (Ty.int n).align = (Ty.int n).extent := by
      unfold align extent
      omega
    have halign : IsAlignment (Ty.int n).align := by
      unfold IsAlignment align
      omega
    exact ⟨halign, by unfold extent; omega, heq ▸ Int.dvd_refl _, fun _ => by simp [size, extent]⟩
  | float | double | pointer =>
    exact ⟨by simp [align, IsAlignment, pointerSize], by simp [extent],
      by simp [align, extent, pointerSize], fun _ => by simp [size, extent, pointerSize]⟩
  | @array n t hn _ ih =>
    have hnonneg := Int.mul_nonneg hn ih.nonneg
    refine ⟨ih.align, hnonneg, Int.dvd_mul_of_dvd_right ih.multiple, fun hfit => ?_⟩
    rw [extent] at hfit
    -- An array without elements takes no room, whatever the size of its elements is.
    have hexact : n * t.size = n * t.extent := by
      rcases Int.le_iff_lt_or_eq.mp hn with hn | rfl
      · have hle := Int.mul_le_mul_of_nonneg_right (Int.add_one_le_of_lt hn) ih.nonneg
        rw [ih.exact (by omega)]
      · simp
    rw [size, extent, hexact]
    exact wrap64_of_fits (by omega) hfit
  | @struct ts _ ih =>
    have halign := (fieldsAlign_spec ih (a := 1) (.inl rfl)).1
    have hround := halign.roundUp (extentFrom 0 ts)
    have hend := le_extentFrom ih 0
    refine ⟨halign, Int.le_trans hend hround.1, hround.2.2, fun hfit => ?_⟩
    rw [extent] at hfit
    have hfits : Fits 0 ts := ⟨ih, Int.le_refl 0, by omega⟩
    rw [size, extent, hfits.fieldsEnd]
    exact halign.alignUp hend hfit

/-- A type with fields is a structure. -/
theorem IsData.fits (h : t.IsData) (hfit : t.extent < 2 ^ 63) (hf : t.fields[i]? = some f) :
    ∃ ts, t = .struct ts ∧ Fits 0 ts := by
  have halign := h.isSized.align
  cases h with
  | @struct ts hts =>
    exact ⟨ts, rfl, fun f hf => (hts f hf).isSized, Int.le_refl 0,
      Int.lt_of_le_of_lt (halign.roundUp _).1 hfit⟩
  | _ => simp [fields] at hf

/-- The parts of an object whose size fits in 63 bits stand where they should and do not overlap. -/
theorem isLaidOut (t : Ty) (h : t.IsData) (hfit : t.extent < 2 ^ 63) : t.IsLaidOut := by
  have hsized := h.isSized
  have hsize := hsized.exact hfit
  refine
    { size := hsize
      power := hsized.align.power
      multiple := hsize ▸ hsized.multiple
      field := ?_
      padding := ?_
      apart := ?_
      element := ?_ }
  · intro i f hf
    obtain ⟨ts, rfl, hfits⟩ := h.fits hfit hf
    have hmem := mem_of_getElem? hf
    have hspec := fieldsAlign_spec hfits.sized (a := 1) (.inl rfl)
    have hend := (hsized.align.roundUp (extentFrom 0 ts)).1
    have hle := hfits.take_le (i := i + 1) (j := ts.length) (List.getElem?_eq_some_iff.mp hf).1
    have hzero := hfits.take_le (Nat.zero_le i)
    obtain ⟨⟨hbehind, -, hdvd⟩, hnext⟩ := hfits.offset hf
    rw [hnext, take_length] at hle
    rw [hsize, extent]
    exact ⟨hdvd, (hfits.sized f hmem).align.dvd hsized.align (hspec.2.2 f hmem),
      Int.le_trans hzero hbehind, Int.le_trans hle hend⟩
  · intro i f g hf hg
    obtain ⟨ts, rfl, hfits⟩ := h.fits hfit hf
    obtain ⟨⟨-, hnear, -⟩, -⟩ := hfits.offset hg
    rwa [(hfits.offset hf).2] at hnear
  · intro i j f g hf hg hij
    obtain ⟨ts, rfl, hfits⟩ := h.fits hfit hf
    have hle := hfits.take_le (Nat.succ_le_of_lt hij)
    rw [(hfits.offset hf).2] at hle
    exact Int.le_trans hle (hfits.offset hg).1.1
  · rintro n e i j rfl hi hij hj
    have helem : e.IsSized := by
      cases h with
      | array _ helem => exact helem.isSized
    have hmul {k m : Int} (hkm : k < m) : k * e.extent + e.extent ≤ m * e.extent := by
      have hle := Int.mul_le_mul_of_nonneg_right (Int.add_one_le_of_lt hkm) helem.nonneg
      rwa [Int.add_mul, Int.one_mul] at hle
    have hone := hmul (Int.lt_of_le_of_lt hi (Int.lt_trans hij hj))
    rw [extent] at hfit hsize
    rw [hsize, helem.exact (by omega)]
    exact ⟨hmul hij, hmul hj⟩

/-- A structure with room between its fields and behind the last one. -/
def mixed : Ty :=
  .struct [.int 8, .double, .array 3 (.int 16), .struct [.int 1, .pointer .void, .float]]

theorem isLaidOut_mixed : mixed.IsData ∧ mixed.extent < 2 ^ 63 ∧ mixed.IsLaidOut := by
  have hinner : IsData (.struct [.int 1, .pointer .void, .float]) :=
    .struct (by simp [IsData.int, IsData.pointer, IsData.float])
  have hdata : mixed.IsData :=
    .struct (by simp [IsData.int, IsData.double, IsData.array, hinner])
  have hfit : mixed.extent < 2 ^ 63 := by decide +kernel
  exact ⟨hdata, hfit, isLaidOut mixed hdata hfit⟩

theorem IsData.size_lt (h : t.IsData) : t.size < 2 ^ 63 := by
  have hword (x : Int) : wrap64 x < 2 ^ 63 := Int.bmod_lt (by decide)
  cases h with
  | int => unfold size; omega
  | float | double | pointer => simp [size, pointerSize]
  | array | struct => simp only [size, alignUp, hword]

/-- The size of data is exact if the exact number fits in 63 bits, and only then. An allocation reserves
as many bytes or is refused. -/
theorem size_exact_iff (t : Ty) (h : t.IsData) : (t.size = t.extent ↔ t.extent < 2 ^ 63) ∧
    (t.extent < 2 ^ 63 → ∀ (m : Memory) kind, m.alloc t.size kind =
      if t.extent < 2 ^ 32 then .ok (Memory.startOf (m.segments.size + 1),
        { m with segments := m.segments.push ⟨t.extent.toNat, kind, true⟩ })
      else .error (.invalidSize t.extent)) := by
  have hsized := h.isSized
  refine ⟨⟨fun heq => heq ▸ h.size_lt, hsized.exact⟩, fun hfit m kind => ?_⟩
  have hnonneg := hsized.nonneg
  rw [hsized.exact hfit, Memory.alloc, show (Memory.offsetSpace : Int) = 2 ^ 32 from rfl]
  split <;> split <;> simp_all
  all_goals omega

theorem size_exact_iff_triple : (Ty.array 3 (.int 32)).size = (Ty.array 3 (.int 32)).extent :=
  (size_exact_iff _ (.array (by decide) (.int (by decide)))).1.mpr (by decide)

theorem size_wraps : (Ty.array (2 ^ 62) (.int 32)).size = 0 ∧
    (Ty.array (2 ^ 62) (.int 32)).extent = 2 ^ 64 := by
  decide

end SsaCompiler.Ssa.Ty
