import SsaCompiler.Proofs.Machine.Canonical
import SsaCompiler.Proofs.Machine.Cell

/-!
# Histories of a memory

What a memory answers can be said without looking into it: the calls made so far and their answers
determine which objects exist, which of them have ended, and what a load gives. A history is the list
of these events, the latest one first. The theorem of this module reads each answer off the history.
-/

namespace SsaCompiler.Machine

open List

variable {size : Int} {kind : SegmentKind}

/-- A call of an operation of a memory, with its answer. -/
inductive Event where
  | alloc (size : Int) (kind : SegmentKind) (answer : Except MemoryFault Word)
  | free (addr : Word) (answer : Except MemoryFault Unit)
  | release (addrs : List Word)
  | store (addr : Word) (type : Ssa.Ty) (x : Word) (answer : Except MemoryFault Unit)
  | load (addr : Word) (type : Ssa.Ty) (answer : Except MemoryFault Word)

/-- The types whose values are integers of a machine width, or pointers. -/
def IsScalar : Ssa.Ty → Prop
  | .int bits => bits = 1 ∨ IsWidth bits
  | .pointer _ => True
  | _ => False

/-- A word has the form of a register of the type. -/
def IsRegister : Ssa.Ty → Word → Prop
  | .int bits, x => x.Canonical bits
  | _, _ => True

/-! ## What a history says -/

/-- An earlier allocation has given the address. -/
def Returned (es : List Event) (addr : Word) : Prop :=
  ∃ size kind, .alloc size kind (.ok addr) ∈ es

/-- The segment has been made, with this size and kind. -/
def Allocated (es : List Event) (segment : Nat) (size : Int) (kind : SegmentKind) : Prop :=
  ∃ addr, .alloc size kind (.ok addr) ∈ es ∧ Memory.segmentOf addr = segment

namespace Event

/-- An object has been made. -/
def isAllocation : Event → Bool
  | .alloc _ _ (.ok _) => true
  | _ => false

/-- The event frees or releases the segment. -/
def Ends (segment : Nat) : Event → Prop
  | .free addr (.ok _) => addr ≠ 0 ∧ Memory.segmentOf addr = segment
  | .release addrs => ∃ addr ∈ addrs, Memory.segmentOf addr = segment
  | _ => False

/-- The event is a successful store that writes the byte. -/
def Covers (byte : Nat) : Event → Prop
  | .store addr type _ (.ok _) => addr.toNat ≤ byte ∧ byte < addr.toNat + type.size.toNat
  | _ => False

/-- The event is a successful store that writes one of the bytes of an object of the type. -/
def Overlaps (addr : Word) (type : Ssa.Ty) (e : Event) : Prop :=
  ∃ byte, addr.toNat ≤ byte ∧ byte < addr.toNat + type.size.toNat ∧ e.Covers byte

/-- The calls that are considered: frames release what they have made, and the values that are
written and read are integers and pointers in the form of registers. -/
def Proper (es : List Event) : Event → Prop
  | .release addrs => ∀ addr ∈ addrs, Returned es addr
  | .store _ type x _ => IsScalar type ∧ IsRegister type x
  | .load _ type _ => IsScalar type
  | _ => True

end Event

/-- How many objects have been made. -/
def allocations (es : List Event) : Nat :=
  es.countP Event.isAllocation

/-- The segment has been freed or released. -/
def Ended (es : List Event) (segment : Nat) : Prop :=
  ∃ e ∈ es, e.Ends segment

/-- An object of the type lies at the address, inside a segment that has not ended. -/
def Accessible (es : List Event) (addr : Word) (type : Ssa.Ty) : Prop :=
  ∃ size kind, Allocated es (Memory.segmentOf addr) size kind ∧
    ¬ Ended es (Memory.segmentOf addr) ∧ (Memory.offsetOf addr + type.size.toNat : Int) ≤ size

/-- The word is what the last store of the type at the address has written, and no later store has
written any of its bytes. -/
def IsLastStore (es : List Event) (addr : Word) (type : Ssa.Ty) (x : Word) : Prop :=
  ∃ later earlier, es = later ++ .store addr type x (.ok ()) :: earlier ∧
    ∀ e ∈ later, ¬ e.Overlaps addr type

/-- The answer that the earlier events ask for.

* An object is made if its size fits an offset, and its address is a new one.
* Freed are the address zero and the start of an object on the heap that has not ended.
* A store succeeds where the object of its type is accessible.
* A load succeeds under the same condition. It gives what was stored last, or zero. -/
def Event.Correct (es : List Event) : Event → Prop
  | .alloc size _ answer =>
    ((∃ addr, answer = .ok addr) ↔ 0 ≤ size ∧ size < 2 ^ 32) ∧
      ∀ addr, answer = .ok addr → ¬ Returned es addr
  | .free addr answer =>
    answer = .ok () ↔ addr = 0 ∨ Memory.offsetOf addr = 0 ∧
      (∃ size, Allocated es (Memory.segmentOf addr) size .heap) ∧
        ¬ Ended es (Memory.segmentOf addr)
  | .release _ => True
  | .store addr type _ answer => answer = .ok () ↔ Accessible es addr type
  | .load addr type answer =>
    ((∃ x, answer = .ok x) ↔ Accessible es addr type) ∧
      ∀ x, answer = .ok x →
        (∀ y, IsLastStore es addr type y → x = y) ∧
          ((∀ e ∈ es, ¬ e.Overlaps addr type) → x = 0)

namespace Memory

/-- The operations of a memory. One that fails leaves the memory as it is. -/
inductive Step (m : Memory) : Event → Memory → Prop
  | alloc {size kind addr m'} (h : m.alloc size kind = .ok (addr, m')) :
      Step m (.alloc size kind (.ok addr)) m'
  | allocFails {size kind fault} (h : m.alloc size kind = .error fault) :
      Step m (.alloc size kind (.error fault)) m
  | free {addr m'} (h : m.free addr = .ok m') : Step m (.free addr (.ok ())) m'
  | freeFails {addr fault} (h : m.free addr = .error fault) : Step m (.free addr (.error fault)) m
  | release (addrs : List Word) : Step m (.release addrs) (addrs.foldl Memory.release m)
  | store {addr type x m'} (h : m.store addr type x = .ok m') :
      Step m (.store addr type x (.ok ())) m'
  | storeFails {addr type x fault} (h : m.store addr type x = .error fault) :
      Step m (.store addr type x (.error fault)) m
  | load (addr : Word) (type : Ssa.Ty) : Step m (.load addr type (m.load addr type)) m

/-- The events since the memory was empty, the latest one first. -/
inductive History : List Event → Memory → Prop
  | start : History [] {}
  | step {es e m m'} (h : History es m) (proper : e.Proper es) (step : m.Step e m') :
      History (e :: es) m'

/-! ## The operations -/

variable {m m' : Memory} {es : List Event} {e : Event} {addr x : Word} {t : Ssa.Ty} {k : Nat}
  {s : Segment}

theorem alloc_eq_ok :
    m.alloc size kind = .ok (addr, m') ↔ (0 ≤ size ∧ size < 2 ^ 32) ∧
      addr = startOf (m.segments.size + 1) ∧
      m' = { m with segments := m.segments.push ⟨size.toNat, kind, true⟩ } := by
  have hspace : (offsetSpace : Int) = 2 ^ 32 := rfl
  unfold alloc
  by_cases h : size < 0 ∨ (2 : Int) ^ 32 ≤ size
  · rw [hspace, if_pos (by simpa using h)]
    refine ⟨(nomatch ·), ?_⟩
    rintro ⟨hsize, -, -⟩
    omega
  · rw [hspace, if_neg (by simpa using h), Except.ok.injEq, Prod.mk.injEq]
    exact ⟨fun h' => ⟨by omega, h'.1.symm, h'.2.symm⟩, fun h' => ⟨h'.2.1.symm, h'.2.2.symm⟩⟩

theorem segment_eq_ok : m.segment addr = .ok s ↔
    ∃ k, segmentOf addr = k + 1 ∧ m.segments[k]? = some s ∧ s.live := by
  unfold segment
  by_cases h0 : addr = 0
  · subst h0
    refine ⟨fun h => (by cases h), ?_⟩
    rintro ⟨k, hk, -⟩
    exact absurd hk (by simp [segmentOf])
  · rw [if_neg (by simpa using h0)]
    cases segmentOf addr with
    | zero =>
      refine ⟨fun h => (by cases h), ?_⟩
      rintro ⟨k, hk, -⟩
      omega
    | succ n =>
      cases hn : m.segments[n]? with
      | none => simp [hn]
      | some s' =>
        cases hlive : s'.live with
        | true => grind
        | false => grind

theorem bind_segment_eq_ok {α : Type} {f : Segment → Except MemoryFault α} {y : α} :
    (m.segment addr >>= f) = .ok y ↔ ∃ s, m.segment addr = .ok s ∧ f s = .ok y := by
  cases m.segment addr <;> simp [bind, Except.bind]

theorem access_eq_ok {n : Nat} :
    m.access addr n = .ok () ↔ ∃ s, m.segment addr = .ok s ∧ offsetOf addr + n ≤ s.size := by
  rw [access, bind_segment_eq_ok]
  simp only [ite_eq_left_iff, reduceCtorEq, imp_false, Decidable.not_not]

theorem free_eq_ok : m.free addr = .ok m' ↔ (addr = 0 ∧ m' = m) ∨
    addr ≠ 0 ∧ ∃ s, m.segment addr = .ok s ∧ s.kind = .heap ∧ offsetOf addr = 0 ∧
      m' = m.release addr := by
  unfold free
  by_cases h0 : addr = 0
  · simp [h0, eq_comm]
  · rw [if_neg (by simpa using h0), bind_segment_eq_ok]
    simp only [h0, false_and, false_or, ne_eq, not_false_iff, true_and]
    refine exists_congr fun s => and_congr_right fun _ => ?_
    split
    next hheap =>
      obtain ⟨hkind, hoffset⟩ : s.kind = .heap ∧ offsetOf addr = 0 := by simpa using hheap
      rw [Except.ok.injEq, eq_comm]
      exact ⟨fun h => ⟨hkind, hoffset, h⟩, fun h => h.2.2⟩
    next hheap =>
      refine ⟨fun h => (by cases h), fun h => absurd ?_ hheap⟩
      simp [h.1, h.2.1]

/-! ### Scalars in bytes -/

/-- The register that the bytes of a scalar stand for. -/
def registerOf (t : Ssa.Ty) (n : Nat) : Word :=
  match t with
  | .int bits => Word.wrap bits (UInt64.ofNat n)
  | _ => UInt64.ofNat n

theorem intWidth_size {bits : Nat} (h : IsScalar (.int bits)) :
    intWidth (Ssa.Ty.int bits).size = (Ssa.Ty.int bits).size.toNat := by
  rcases h with rfl | rfl | rfl | rfl | rfl <;> rfl

theorem pointer_size (t : Ssa.Ty) : (Ssa.Ty.pointer t).size.toNat = 8 :=
  rfl

theorem load_eq_ok (ht : IsScalar t) : m.load addr t = .ok x ↔
    m.access addr t.size.toNat = .ok () ∧
      x = registerOf t (m.number addr.toNat t.size.toNat) := by
  unfold load
  cases t with
  | int bits =>
    rw [intWidth_size ht]
    cases m.access addr (Ssa.Ty.int bits).size.toNat <;>
      simp [bind, Except.bind, registerOf, eq_comm]
  | pointer t =>
    cases m.access addr (Ssa.Ty.pointer t).size.toNat <;>
      simp [bind, Except.bind, registerOf, eq_comm, pointer_size]
  | _ => exact ht.elim

theorem store_eq_ok (ht : IsScalar t) : m.store addr t x = .ok m' ↔
    m.access addr t.size.toNat = .ok () ∧
      m' = m.setNumber addr.toNat x.toNat t.size.toNat := by
  unfold store
  cases t with
  | int bits =>
    rw [intWidth_size ht]
    cases m.access addr (Ssa.Ty.int bits).size.toNat <;> simp [bind, Except.bind, eq_comm]
  | pointer t =>
    cases m.access addr (Ssa.Ty.pointer t).size.toNat <;>
      simp [bind, Except.bind, eq_comm, pointer_size]
  | _ => exact ht.elim

theorem registerOf_bytes (ht : IsScalar t) (hx : IsRegister t x) :
    registerOf t (x.toNat % 256 ^ t.size.toNat) = x := by
  cases t with
  | int bits =>
    refine Eq.trans ?_ hx
    rcases ht with rfl | rfl | rfl | rfl | rfl
    · exact wrap_bytes (p := .bool) rfl x
    · exact wrap_bytes (p := .byte) rfl x
    · exact wrap_bytes (p := .short) rfl x
    · exact wrap_bytes (p := .int) rfl x
    · exact wrap_bytes (p := .long) rfl x
  | pointer t =>
    show UInt64.ofNat (x.toNat % 18446744073709551616) = x
    rw [Nat.mod_eq_of_lt x.toNat_lt]
    exact UInt64.ofNat_toNat
  | _ => exact ht.elim

theorem registerOf_zero (ht : IsScalar t) : registerOf t 0 = 0 := by
  cases t with
  | int bits => rcases ht with rfl | rfl | rfl | rfl | rfl <;> rfl
  | pointer t => rfl
  | _ => exact ht.elim

theorem number_empty (a n : Nat) : ({} : Memory).number a n = 0 := by
  induction n generalizing a with
  | zero => rfl
  | succ n ih =>
    unfold number
    rw [ih]
    simp [byte]

/-! ### Releasing -/

theorem byte_release (m : Memory) (addr : Word) (c : Nat) : (m.release addr).byte c = m.byte c := by
  unfold release
  split <;> rfl

theorem size_release (m : Memory) (addr : Word) :
    (m.release addr).segments.size = m.segments.size := by
  unfold release
  split
  · rfl
  · exact Array.size_modify ..

/-- A release ends the segment of the address and no other. -/
theorem segment_release (h : (m.release addr).segments[k]? = some s) :
    ∃ s₀, m.segments[k]? = some s₀ ∧ s.size = s₀.size ∧ s.kind = s₀.kind ∧
      (s.live ↔ s₀.live ∧ segmentOf addr ≠ k + 1) := by
  cases hn : segmentOf addr with
  | zero =>
    unfold release at h
    rw [hn] at h
    exact ⟨s, h, rfl, rfl, by simp⟩
  | succ n =>
    rw [release_of_segmentOf hn, Array.getElem?_modify] at h
    by_cases hk : n = k
    · subst hk
      rw [if_pos rfl, Option.map_eq_some_iff] at h
      obtain ⟨s₀, hs₀, rfl⟩ := h
      exact ⟨s₀, hs₀, rfl, rfl, by simp⟩
    · rw [if_neg hk] at h
      exact ⟨s, h, rfl, rfl, by simp [hk]⟩

theorem byte_releaseAll (addrs : List Word) (m : Memory) (c : Nat) :
    (addrs.foldl release m).byte c = m.byte c := by
  induction addrs generalizing m with
  | nil => rfl
  | cons a addrs ih => exact (ih _).trans (m.byte_release a c)

theorem size_releaseAll (addrs : List Word) (m : Memory) :
    (addrs.foldl release m).segments.size = m.segments.size := by
  induction addrs generalizing m with
  | nil => rfl
  | cons a addrs ih => exact (ih _).trans (m.size_release a)

theorem segment_releaseAll {addrs : List Word} (h : (addrs.foldl release m).segments[k]? = some s) :
    ∃ s₀, m.segments[k]? = some s₀ ∧ s.size = s₀.size ∧ s.kind = s₀.kind ∧
      (s.live ↔ s₀.live ∧ ¬ ∃ a ∈ addrs, segmentOf a = k + 1) := by
  induction addrs generalizing m with
  | nil => exact ⟨s, h, rfl, rfl, by simp⟩
  | cons a addrs ih =>
    obtain ⟨s₁, hs₁, hsize₁, hkind₁, hlive₁⟩ := ih h
    obtain ⟨s₀, hs₀, hsize₀, hkind₀, hlive₀⟩ := segment_release hs₁
    refine ⟨s₀, hs₀, hsize₁.trans hsize₀, hkind₁.trans hkind₀, ?_⟩
    rw [hlive₁, hlive₀]
    simp [and_assoc]

/-! ## Segments -/

/-- The segments of a memory are those of its history. -/
structure Agrees (es : List Event) (m : Memory) : Prop where
  /-- Every allocation has made one. -/
  size : m.segments.size = allocations es
  made : ∀ {size kind addr}, .alloc size kind (.ok addr) ∈ es →
    ∃ k s, m.segments[k]? = some s ∧ addr = startOf (k + 1) ∧ (s.size : Int) = size ∧ s.kind = kind
  allocated : ∀ {k s}, m.segments[k]? = some s →
    .alloc s.size s.kind (.ok (startOf (k + 1))) ∈ es
  live : ∀ {k s}, m.segments[k]? = some s → (s.live ↔ ¬ Ended es (k + 1))
  /-- Only segments that exist have ended. -/
  ended : ∀ {k}, Ended es k → k ≤ m.segments.size

theorem allocations_le_cons (e : Event) (es : List Event) :
    allocations es ≤ allocations (e :: es) :=
  List.Sublist.countP_le (sublist_cons_self e es)

namespace Agrees

theorem start : Agrees [] {} where
  size := rfl
  made h := nomatch h
  allocated h := by simp at h
  live h := by simp at h
  ended := by
    rintro k ⟨e, he, -⟩
    exact nomatch he

section

variable (h : Agrees es m)

include h

theorem ending (he : e.isAllocation = false)
    (hsize : m'.segments.size = m.segments.size)
    (hends : ∀ k, e.Ends k → k ≤ m.segments.size)
    (hseg : ∀ k s, m'.segments[k]? = some s → ∃ s₀, m.segments[k]? = some s₀ ∧
      s.size = s₀.size ∧ s.kind = s₀.kind ∧ (s.live ↔ s₀.live ∧ ¬ e.Ends (k + 1))) :
    Agrees (e :: es) m' where
  size := by
    rw [hsize, h.size]
    simp [allocations, he]
  made := by
    intro size kind addr hmem
    rcases mem_cons.mp hmem with rfl | hmem
    · exact nomatch he
    · obtain ⟨k, s₀, hs₀, haddr, hsz, hkind⟩ := h.made hmem
      obtain ⟨hlt, -⟩ := Array.getElem?_eq_some_iff.mp hs₀
      have hlt' : k < m'.segments.size := by omega
      have hs := Array.getElem?_eq_getElem hlt'
      obtain ⟨s₁, hs₁, hsz₁, hkind₁, -⟩ := hseg k _ hs
      rw [hs₀, Option.some.injEq] at hs₁
      subst hs₁
      exact ⟨k, _, hs, haddr, by rw [hsz₁, hsz], by rw [hkind₁, hkind]⟩
  allocated := by
    intro k s hs
    obtain ⟨s₀, hs₀, hsz, hkind, -⟩ := hseg k s hs
    rw [hsz, hkind]
    exact mem_cons_of_mem _ (h.allocated hs₀)
  live := by
    intro k s hs
    obtain ⟨s₀, hs₀, -, -, hlive⟩ := hseg k s hs
    rw [hlive, h.live hs₀]
    simp only [Ended, mem_cons, exists_eq_or_imp, not_or]
    exact and_comm
  ended := by
    rintro k ⟨e', hmem, he'⟩
    rw [hsize]
    rcases mem_cons.mp hmem with rfl | hmem
    · exact hends k he'
    · exact h.ended ⟨e', hmem, he'⟩

theorem same (he : e.isAllocation = false) (hends : ∀ k, ¬ e.Ends k)
    (hseg : m'.segments = m.segments) : Agrees (e :: es) m' := by
  refine h.ending he (by rw [hseg]) (fun k hk => absurd hk (hends k)) fun k s hs => ?_
  rw [hseg] at hs
  exact ⟨s, hs, rfl, rfl, by simp [hends]⟩

theorem push (hsize : 0 ≤ size) :
    Agrees (.alloc size kind (.ok (startOf (m.segments.size + 1))) :: es)
      { m with segments := m.segments.push ⟨size.toNat, kind, true⟩ } where
  size := by
    rw [Array.size_push, h.size]
    exact (countP_cons_of_pos rfl).symm
  made := by
    intro size' kind' addr hmem
    rcases mem_cons.mp hmem with heq | hmem
    · injection heq with hsz hkd haddr
      subst hsz hkd
      exact ⟨m.segments.size, _, Array.getElem?_push_size, Except.ok.inj haddr,
        Int.toNat_of_nonneg hsize, rfl⟩
    · obtain ⟨k, s, hs, rest⟩ := h.made hmem
      obtain ⟨hlt, -⟩ := Array.getElem?_eq_some_iff.mp hs
      exact ⟨k, s, by rw [Array.getElem?_push, if_neg (by omega), hs], rest⟩
  allocated := by
    intro k s hs
    rw [Array.getElem?_push] at hs
    split at hs
    · rename_i hk
      subst hk
      obtain rfl := Option.some.inj hs
      rw [Int.toNat_of_nonneg hsize]
      exact mem_cons_self
    · exact mem_cons_of_mem _ (h.allocated hs)
  live := by
    intro k s hs
    have hcons : Ended (.alloc size kind (.ok (startOf (m.segments.size + 1))) :: es) (k + 1) ↔
        Ended es (k + 1) := by
      simp [Ended, Event.Ends]
    rw [hcons]
    rw [Array.getElem?_push] at hs
    split at hs
    · obtain rfl := Option.some.inj hs
      simp only [true_iff]
      intro hended
      have := h.ended hended
      omega
    · exact h.live hs
  ended := by
    rintro k ⟨e, hmem, he⟩
    rw [Array.size_push]
    rcases mem_cons.mp hmem with rfl | hmem
    · exact he.elim
    · exact Nat.le_succ_of_le (h.ended ⟨e, hmem, he⟩)

theorem segmentOf_returned (few : allocations es < 2 ^ 32 - 1)
    (ha : Returned es addr) : ∃ k < m.segments.size, segmentOf addr = k + 1 := by
  obtain ⟨size, kind, hmem⟩ := ha
  obtain ⟨k, s, hs, rfl, -⟩ := h.made hmem
  obtain ⟨hlt, -⟩ := Array.getElem?_eq_some_iff.mp hs
  have := h.size
  exact ⟨k, hlt, segmentOf_startOf (by omega)⟩

theorem step (few : allocations (e :: es) < 2 ^ 32 - 1) (proper : e.Proper es)
    (hstep : m.Step e m') : Agrees (e :: es) m' := by
  have few' := Nat.lt_of_le_of_lt (allocations_le_cons e es) few
  cases hstep with
  | alloc halloc =>
    obtain ⟨⟨hsize, -⟩, rfl, rfl⟩ := alloc_eq_ok.mp halloc
    exact h.push hsize
  | allocFails => exact h.same rfl (fun _ he => he) rfl
  | @free addr _ hfree =>
    rcases free_eq_ok.mp hfree with ⟨rfl, rfl⟩ | ⟨hne, s, hsegment, -, -, rfl⟩
    · exact h.same rfl (fun _ he => he.1 rfl) rfl
    · obtain ⟨k, hk, hs, -⟩ := segment_eq_ok.mp hsegment
      refine h.ending rfl (m.size_release addr) ?_ fun j s' hs' => ?_
      · rintro j ⟨-, rfl⟩
        have := (Array.getElem?_eq_some_iff.mp hs).1
        omega
      · obtain ⟨s₀, hs₀, hsz, hkind, hlive⟩ := segment_release hs'
        refine ⟨s₀, hs₀, hsz, hkind, hlive.trans ?_⟩
        simp [Event.Ends, hne]
  | freeFails => exact h.same rfl (fun _ he => he) rfl
  | release addrs =>
    refine h.ending rfl (size_releaseAll addrs m) ?_ fun j s' hs' => segment_releaseAll hs'
    rintro j ⟨a, ha, rfl⟩
    obtain ⟨k, hk, hseg⟩ := h.segmentOf_returned few' (proper a ha)
    omega
  | store hstore =>
    refine h.same rfl (fun _ he => he) ?_
    obtain ⟨-, rfl⟩ := (store_eq_ok proper.1).mp hstore
    exact segments_setNumber ..
  | storeFails => exact h.same rfl (fun _ he => he) rfl
  | load => exact h.same rfl (fun _ he => he) rfl

theorem allocated_iff (few : allocations es < 2 ^ 32 - 1) {n : Nat} :
    Allocated es n size kind ↔
      ∃ k s, n = k + 1 ∧ m.segments[k]? = some s ∧ (s.size : Int) = size ∧ s.kind = kind := by
  have hseg : ∀ {k s}, m.segments[k]? = some s → segmentOf (startOf (k + 1)) = k + 1 := by
    intro k s hs
    obtain ⟨hlt, -⟩ := Array.getElem?_eq_some_iff.mp hs
    have := h.size
    exact segmentOf_startOf (by omega)
  constructor
  · rintro ⟨addr, hmem, rfl⟩
    obtain ⟨k, s, hs, rfl, hsize, hkind⟩ := h.made hmem
    exact ⟨k, s, hseg hs, hs, hsize, hkind⟩
  · rintro ⟨k, s, rfl, hs, rfl, rfl⟩
    exact ⟨startOf (k + 1), h.allocated hs, hseg hs⟩

theorem segment_iff (few : allocations es < 2 ^ 32 - 1) :
    (∃ s, m.segment addr = .ok s ∧ (s.size : Int) = size ∧ s.kind = kind) ↔
      Allocated es (segmentOf addr) size kind ∧ ¬ Ended es (segmentOf addr) := by
  constructor
  · rintro ⟨s, hs, hsize, hkind⟩
    obtain ⟨k, hk, hs, hlive⟩ := segment_eq_ok.mp hs
    refine ⟨(h.allocated_iff few).mpr ⟨k, s, hk, hs, hsize, hkind⟩, ?_⟩
    rw [hk]
    exact (h.live hs).mp hlive
  · rintro ⟨halloc, hended⟩
    obtain ⟨k, s, hk, hs, hsize, hkind⟩ := (h.allocated_iff few).mp halloc
    rw [hk] at hended
    exact ⟨s, segment_eq_ok.mpr ⟨k, hk, hs, (h.live hs).mpr hended⟩, hsize, hkind⟩

theorem access_iff (few : allocations es < 2 ^ 32 - 1) :
    m.access addr t.size.toNat = .ok () ↔ Accessible es addr t := by
  rw [access_eq_ok]
  constructor
  · rintro ⟨s, hs, hle⟩
    obtain ⟨halloc, hended⟩ := (h.segment_iff few).mp ⟨s, hs, rfl, rfl⟩
    exact ⟨s.size, s.kind, halloc, hended, by omega⟩
  · rintro ⟨size, kind, halloc, hended, hle⟩
    obtain ⟨s, hs, rfl, -⟩ := (h.segment_iff few).mpr ⟨halloc, hended⟩
    exact ⟨s, hs, by omega⟩

theorem free_iff (few : allocations es < 2 ^ 32 - 1) :
    (∃ m', m.free addr = .ok m') ↔ addr = 0 ∨ offsetOf addr = 0 ∧
      (∃ size, Allocated es (segmentOf addr) size .heap) ∧ ¬ Ended es (segmentOf addr) := by
  constructor
  · rintro ⟨m', hfree⟩
    rcases free_eq_ok.mp hfree with ⟨rfl, -⟩ | ⟨-, s, hs, hkind, hoffset, -⟩
    · exact .inl rfl
    · obtain ⟨halloc, hended⟩ := (h.segment_iff few).mp ⟨s, hs, rfl, hkind⟩
      exact .inr ⟨hoffset, ⟨s.size, halloc⟩, hended⟩
  · rintro (rfl | ⟨hoffset, ⟨size, halloc⟩, hended⟩)
    · exact ⟨m, rfl⟩
    · obtain ⟨s, hs, -, hkind⟩ := (h.segment_iff few).mpr ⟨halloc, hended⟩
      by_cases h0 : addr = 0
      · exact ⟨m, free_eq_ok.mpr (.inl ⟨h0, rfl⟩)⟩
      · exact ⟨_, free_eq_ok.mpr (.inr ⟨h0, s, hs, hkind, hoffset, rfl⟩)⟩

end

end Agrees

theorem History.agrees (h : History es m) (few : allocations es < 2 ^ 32 - 1) : Agrees es m := by
  induction h with
  | start => exact .start
  | step _ proper hstep ih =>
    exact (ih (Nat.lt_of_le_of_lt (allocations_le_cons _ _) few)).step few proper hstep

/-! ## Bytes -/

/-- Only a successful store changes bytes, and only those in its range. -/
theorem Step.byte (hstep : m.Step e m') (proper : e.Proper es) {c : Nat} (hc : ¬ e.Covers c) :
    m'.byte c = m.byte c := by
  cases hstep with
  | alloc halloc =>
    obtain ⟨-, -, rfl⟩ := alloc_eq_ok.mp halloc
    rfl
  | free hfree =>
    rcases free_eq_ok.mp hfree with ⟨-, rfl⟩ | ⟨-, s, -, -, -, rfl⟩
    · rfl
    · exact byte_release ..
  | release addrs => exact byte_releaseAll addrs m c
  | store hstore =>
    obtain ⟨-, rfl⟩ := (store_eq_ok proper.1).mp hstore
    refine byte_setNumber ?_
    simp only [Event.Covers] at hc
    omega
  | _ => rfl

/-- A byte keeps its content until a store covers it. -/
theorem History.byte_of_append {later : List Event} (h : History (later ++ es) m) :
    ∃ m₀, History es m₀ ∧ ∀ c, (∀ e ∈ later, ¬ e.Covers c) → m.byte c = m₀.byte c := by
  induction later generalizing m with
  | nil => exact ⟨m, h, fun _ _ => rfl⟩
  | cons e later ih =>
    cases h with
    | step h proper hstep =>
      obtain ⟨m₀, h₀, hbyte⟩ := ih h
      refine ⟨m₀, h₀, fun c hc => ?_⟩
      rw [hstep.byte proper (hc e mem_cons_self)]
      exact hbyte c fun e' he' => hc e' (mem_cons_of_mem _ he')

/-- The number in the bytes of an object that no event overlaps is the one it had before. -/
theorem History.number_of_append {later : List Event} (h : History (later ++ es) m)
    (hlater : ∀ e ∈ later, ¬ e.Overlaps addr t) :
    ∃ m₀, History es m₀ ∧
      m.number addr.toNat t.size.toNat = m₀.number addr.toNat t.size.toNat := by
  obtain ⟨m₀, h₀, hbyte⟩ := h.byte_of_append
  refine ⟨m₀, h₀, number_congr fun c hlo hhi => hbyte c fun e he hc => ?_⟩
  exact hlater e he ⟨c, hlo, hhi, hc⟩

/-- What has been stored last is in the bytes. -/
theorem History.registerOf_lastStore (h : History es m) (ht : IsScalar t)
    (hlast : IsLastStore es addr t x) :
    registerOf t (m.number addr.toNat t.size.toNat) = x := by
  obtain ⟨later, earlier, rfl, hlater⟩ := hlast
  obtain ⟨m₁, h₁, hnumber⟩ := h.number_of_append hlater
  rw [hnumber]
  cases h₁ with
  | step _ proper hstep =>
    cases hstep with
    | store hstore =>
      obtain ⟨-, rfl⟩ := (store_eq_ok proper.1).mp hstore
      rw [number_setNumber]
      exact registerOf_bytes ht proper.2

/-- Bytes that have never been stored are zero. -/
theorem History.registerOf_untouched (h : History es m) (ht : IsScalar t)
    (hfree : ∀ e ∈ es, ¬ e.Overlaps addr t) :
    registerOf t (m.number addr.toNat t.size.toNat) = 0 := by
  rw [← append_nil es] at h
  obtain ⟨m₀, h₀, hnumber⟩ := h.number_of_append hfree
  cases h₀
  rw [hnumber, number_empty]
  exact registerOf_zero ht

/-! ## The answers -/

/-- Every answer is the one that the earlier events ask for, and no event changes a byte other than a
store in its own range. -/
theorem History.correct_next (h : History es m) (proper : e.Proper es) (hstep : m.Step e m')
    (few : allocations (e :: es) < 2 ^ 32 - 1) :
    e.Correct es ∧ ∀ c, ¬ e.Covers c → m'.byte c = m.byte c := by
  have few' := Nat.lt_of_le_of_lt (allocations_le_cons e es) few
  have hagrees := h.agrees few'
  refine ⟨?_, fun c hc => hstep.byte proper hc⟩
  cases hstep with
  | alloc halloc =>
    obtain ⟨hsize, rfl, -⟩ := alloc_eq_ok.mp halloc
    refine ⟨⟨fun _ => hsize, fun _ => ⟨_, rfl⟩⟩, ?_⟩
    rintro addr heq hreturned
    obtain rfl := Except.ok.inj heq
    obtain ⟨k, hk, hseg⟩ := hagrees.segmentOf_returned few' hreturned
    have hcount := hagrees.size
    rw [segmentOf_startOf (by omega)] at hseg
    omega
  | allocFails halloc =>
    refine ⟨⟨fun h => ?_, fun hsize => ?_⟩, fun _ h => nomatch h⟩
    · obtain ⟨_, h⟩ := h
      exact nomatch h
    · rw [alloc_eq_ok.mpr ⟨hsize, rfl, rfl⟩] at halloc
      exact nomatch halloc
  | free hfree => exact ⟨fun _ => (hagrees.free_iff few').mp ⟨_, hfree⟩, fun _ => rfl⟩
  | freeFails hfree =>
    refine ⟨(nomatch ·), fun hlive => ?_⟩
    obtain ⟨m', hok⟩ := (hagrees.free_iff few').mpr hlive
    rw [hok] at hfree
    exact nomatch hfree
  | release => trivial
  | store hstore =>
    obtain ⟨haccess, -⟩ := (store_eq_ok proper.1).mp hstore
    exact ⟨fun _ => (hagrees.access_iff few').mp haccess, fun _ => rfl⟩
  | storeFails hstore =>
    refine ⟨(nomatch ·), fun haccess => ?_⟩
    rw [(store_eq_ok proper.1).mpr ⟨(hagrees.access_iff few').mpr haccess, rfl⟩] at hstore
    exact nomatch hstore
  | load addr t =>
    refine ⟨?_, fun x hx => ?_⟩
    · rw [← hagrees.access_iff few']
      constructor
      · rintro ⟨x, hx⟩
        exact ((load_eq_ok proper).mp hx).1
      · intro haccess
        exact ⟨_, (load_eq_ok proper).mpr ⟨haccess, rfl⟩⟩
    · obtain ⟨-, rfl⟩ := (load_eq_ok proper).mp hx
      exact ⟨fun y hy => h.registerOf_lastStore proper hy, h.registerOf_untouched proper⟩

/-- An object on the heap, a store into it and a load. -/
theorem History.correct_next_load : ∃ m,
    History [.store (startOf 1) (.int 32) 7 (.ok ()), .alloc 8 .heap (.ok (startOf 1))] m ∧
      m.load (startOf 1) (.int 32) = .ok 7 := by
  have hscalar : IsScalar (.int 32) := .inr (.inr (.inr (.inl rfl)))
  have h₁ : History [.alloc 8 .heap (.ok (startOf 1))] { segments := #[⟨8, .heap, true⟩] } :=
    .step .start trivial (.alloc rfl)
  obtain ⟨m, hstore⟩ : ∃ m, ({ segments := #[⟨8, .heap, true⟩] } : Memory).store (startOf 1)
      (.int 32) 7 = .ok m := ⟨_, (store_eq_ok hscalar).mpr ⟨rfl, rfl⟩⟩
  have h₂ : History (.store (startOf 1) (.int 32) 7 (.ok ()) :: _) m :=
    h₁.step ⟨hscalar, rfl⟩ (.store hstore)
  obtain ⟨⟨haccess, hvalue⟩, -⟩ := h₂.correct_next
    (e := .load (startOf 1) (.int 32) (m.load (startOf 1) (.int 32))) hscalar (.load _ _)
    (by simp [allocations, Event.isAllocation])
  have hin : Allocated [.store (startOf 1) (.int 32) 7 (.ok ()),
      .alloc 8 .heap (.ok (startOf 1))] (segmentOf (startOf 1)) 8 .heap :=
    ⟨startOf 1, by simp, rfl⟩
  obtain ⟨x, hx⟩ := haccess.mpr ⟨8, .heap, hin, by simp [Ended, Event.Ends], by decide⟩
  obtain rfl := (hvalue x hx).1 7 ⟨[], _, rfl, by simp⟩
  exact ⟨m, h₂, hx⟩

end Memory

end SsaCompiler.Machine
