import SsaCompiler.Machine.Run
import SsaCompiler.Proofs.Machine.History

/-!
# What operations do to the world

Reading an operand may put a constant text into memory, and nothing else: objects that are there stay
as they are. So do stores and loads. Beyond that an operation makes one object on the stack, makes
one on the heap, or frees one. No operation starts or leaves a function.
-/

namespace SsaCompiler.Machine

open Memory
open Ssa (ValueRef)

namespace Memory

variable {m m' m'' : Memory} {kind : SegmentKind} {addr : Word} {size : Int}

/-- The objects of a memory are as before, and those that are new are not on the stack. -/
structure Extends (m m' : Memory) : Prop where
  size_le : m.segments.size ≤ m'.segments.size
  kept : ∀ k < m.segments.size, m'.segments[k]? = m.segments[k]?
  added : ∀ k s, m.segments.size ≤ k → m'.segments[k]? = some s → s.kind ≠ .stack

namespace Extends

theorem of_segments (h : m'.segments = m.segments) : Extends m m' := by
  refine ⟨Nat.le_of_eq (by rw [h]), fun k _ => by rw [h], fun k s hk hs => ?_⟩
  rw [h, Array.getElem?_eq_none hk] at hs
  cases hs

theorem refl (m : Memory) : Extends m m :=
  of_segments rfl

theorem trans (h : Extends m m') (h' : Extends m' m'') : Extends m m'' := by
  refine ⟨Nat.le_trans h.size_le h'.size_le, fun k hk => ?_, fun k s hk hs => ?_⟩
  · rw [h'.kept k (Nat.lt_of_lt_of_le hk h.size_le), h.kept k hk]
  · by_cases hlt : k < m'.segments.size
    · rw [h'.kept k hlt] at hs
      exact h.added k s hk hs
    · exact h'.added k s (Nat.le_of_not_lt hlt) hs

theorem push {s : Segment} (h : s.kind ≠ .stack) :
    Extends m { m with segments := m.segments.push s } := by
  refine ⟨?_, fun k hk => ?_, fun k t hk ht => ?_⟩
  · rw [Array.size_push]
    exact Nat.le_succ _
  · rw [Array.getElem?_push, if_neg (by omega)]
  · rw [Array.getElem?_push] at ht
    split at ht
    · rw [← Option.some.inj ht]
      exact h
    · rw [Array.getElem?_eq_none hk] at ht
      cases ht

end Extends

theorem of_alloc (h : m.alloc size kind = .ok (addr, m')) : addr = startOf (m.segments.size + 1) ∧
      m' = { m with segments := m.segments.push ⟨size.toNat, kind, true⟩ } := by
  unfold alloc at h
  split at h
  · cases h
  · simp only [Except.ok.injEq, Prod.mk.injEq] at h
    exact ⟨h.1.symm, h.2.symm⟩

theorem size_alloc
    (h : m.alloc size kind = .ok (addr, m')) : m'.segments.size ≤ m.segments.size + 1 := by
  simp [(of_alloc h).2]

theorem size_free (h : m.free addr = .ok m') :
    m'.segments.size = m.segments.size := by
  rcases free_eq_ok.mp h with ⟨-, rfl⟩ | ⟨_, _, _, _, _, rfl⟩
  · rfl
  · exact size_release ..

theorem Extends.alloc
    (h : m.alloc size kind = .ok (addr, m')) (hkind : kind ≠ .stack) : Extends m m' := by
  rw [(of_alloc h).2]
  exact .push hkind

theorem segments_setBytes (m : Memory) (addr : Nat) (bytes : List UInt8) :
    (m.setBytes addr bytes).segments = m.segments := by
  induction bytes generalizing m addr with
  | nil => rfl
  | cons b bytes ih => exact ih ..

theorem segments_store {addr x : Word} {t : Ssa.Ty} (h : m.store addr t x = .ok m') :
    m'.segments = m.segments := by
  unfold store at h
  cases haccess : m.access addr t.size.toNat with
  | error fault => simp [haccess, bind, Except.bind] at h
  | ok u =>
    simp only [haccess, bind, Except.bind] at h
    split at h
    all_goals
      cases h
      try exact segments_setNumber ..

end Memory

/-! ## Operands -/

/-- The constant texts that values of a program refer to, each with the number of its module. -/
def Program.texts (p : Program) : List (Nat × Nat) :=
  (List.range (p.linked.length + 1)).flatMap fun i =>
    (p.module i).values.toList.filterMap fun x =>
      match x.aux with
      | .global g => some (i, g)
      | _ => none

/-- Between two worlds no function has been started or left. The texts that are new belong to the
program, and at most `n` objects have been made beside them. -/
structure World.Follows (p : Program) (n : Nat) (w w' : World) : Prop where
  depth : w'.depth = w.depth
  steps : w'.steps = w.steps
  texts : ∀ k ∈ w'.globals, k ∈ w.globals ∨ k ∈ p.texts
  made : w'.memory.segments.size + w.globals.size ≤ w.memory.segments.size + w'.globals.size + n

/-- Operands have been read: objects are as before, and only texts are new. -/
structure World.Extends (p : Program) (w w' : World) : Prop extends World.Follows p 0 w w' where
  memory : w.memory.Extends w'.memory

/-- The world after one more step. -/
def World.tick (w : World) : World :=
  { w with steps := w.steps + 1 }

/-- The world after a function has been started. -/
def World.entered (w : World) : World :=
  { w with depth := w.depth + 1 }

/-- The world after the function of a frame has been left. -/
def World.without (w : World) (f : Frame) : World :=
  { w with memory := f.slots.foldl Memory.release w.memory, depth := w.depth - 1 }

/-- A step has read operands, and may have been counted. -/
def World.Comes (p : Program) (w w' : World) : Prop :=
  w.Extends p w' ∨ w.tick.Extends p w'

variable {p : Program} {i n : Nat} {regs : Registers} {w w' w'' : World} {mem : Memory}

theorem Program.mem_texts {v : ValueRef} {g : Nat} (h : ((p.module i).value v).aux = .global g) :
    (i, g) ∈ p.texts := by
  have hv : v < (p.module i).values.size := by
    refine Nat.lt_of_not_le fun hle => ?_
    rw [Ssa.Module.value, Array.getD_eq_getD_getElem?, Array.getElem?_eq_none hle] at h
    cases h
  have hi : i < p.linked.length + 1 := by
    refine Nat.lt_of_not_le fun hle => ?_
    obtain ⟨j, rfl⟩ := Nat.exists_eq_add_of_le' (Nat.le_trans (Nat.le_add_left 1 _) hle)
    have hnone : p.linked[j]? = none := List.getElem?_eq_none (by omega)
    rw [Program.module, List.getD_eq_getElem?_getD, hnone] at hv
    exact absurd hv (Nat.not_lt_zero _)
  refine List.mem_flatMap.mpr ⟨i, List.mem_range.mpr hi, List.mem_filterMap.mpr
    ⟨(p.module i).value v, ?_, by rw [h]⟩⟩
  rw [Ssa.Module.value, Array.getD_eq_getD_getElem?, Array.getElem?_eq_getElem hv]
  exact Array.getElem_mem_toList hv

namespace World

namespace Extends

theorem refl (p : Program) (w : World) : w.Extends p w :=
  ⟨⟨rfl, rfl, fun _ => .inl, Nat.le_refl _⟩, .refl _⟩

theorem follows (h : w.Extends p w') (h' : w'.Follows p n w'') : w.Follows p n w'' := by
  refine ⟨h'.depth.trans h.depth, h'.steps.trans h.steps, fun k hk => ?_, ?_⟩
  · exact (h'.texts k hk).elim (h.texts k) .inr
  · have := h.made
    have := h'.made
    omega

theorem trans (h : w.Extends p w') (h' : w'.Extends p w'') : w.Extends p w'' :=
  ⟨h.follows h'.toFollows, h.memory.trans h'.memory⟩

/-- Nothing but the memory has changed, in which there may be one more object. -/
theorem change (h : w.Extends p w') (hsize : mem.segments.size ≤ w'.memory.segments.size + 1) :
    w.Follows p 1 { w' with memory := mem } := by
  refine ⟨h.depth, h.steps, h.texts, ?_⟩
  have := h.made
  show mem.segments.size + w.globals.size ≤ w.memory.segments.size + w'.globals.size + 1
  omega

theorem follows_one (h : w.Extends p w') : w.Follows p 1 w' :=
  h.change (Nat.le_succ _)

end Extends

theorem global_extends {g : Nat} (w : World) (text : Ssa.Global) (h : (i, g) ∈ p.texts) :
    w.Extends p (w.global i g text).2 := by
  unfold World.global
  split
  · exact .refl p w
  next hnew =>
    dsimp only
    split
    next halloc =>
      have hsize := (of_alloc halloc).2
      refine ⟨⟨rfl, rfl, fun k hk => ?_, ?_⟩, (Memory.Extends.alloc halloc (by decide)).trans
        (.of_segments (segments_setBytes ..))⟩
      · rcases Std.HashMap.mem_insert.mp hk with heq | hk
        · exact .inr (eq_of_beq heq ▸ h)
        · exact .inl hk
      · have hkey : (i, g) ∉ w.globals := by simpa using hnew
        simp only [segments_setBytes, hsize, Array.size_push, Std.HashMap.size_insert, hkey,
          if_false]
        omega
    next => exact .refl p w

theorem read_extends (p : Program) (i : Nat) (regs : Registers) (w : World) (v : ValueRef) :
    w.Extends p (w.read (p.module i) i regs v).2 := by
  unfold World.read
  dsimp only
  split
  next => exact .refl p w
  next => exact .refl p w
  next => exact .refl p w
  next =>
    split
    next haux => exact w.global_extends _ (Program.mem_texts haux)
    next => exact .refl p w
  next => exact .refl p w

end World

/-- What is read for an argument; zero if it is missing. -/
abbrev readArg (m : Ssa.Module) (module : Nat) (regs : Registers) (w : World)
    (a : Option ValueRef) : Word × World :=
  a.elim (0, w) (w.read m module regs)

theorem readArg_extends (p : Program) (i : Nat) (regs : Registers) (w : World)
    (a : Option ValueRef) : w.Extends p (readArg (p.module i) i regs w a).2 := by
  cases a with
  | none => exact .refl p w
  | some v => exact w.read_extends p i regs v

theorem readAll_extends (p : Program) (i : Nat) (regs : Registers) (w : World)
    (as : List (Option ValueRef)) : w.Extends p (World.readAll (p.module i) i regs w as).2 := by
  induction as generalizing w with
  | nil => exact .refl p w
  | cons a as ih => exact (readArg_extends p i regs w a).trans (ih _)

theorem phiValues_extends {arg : Option Nat} {vs : List ValueRef} {xs : List (ValueRef × Word)}
    (h : Program.phiValues (p.module i) i regs arg w vs = .ok (xs, w')) : w.Extends p w' := by
  induction vs generalizing w w' xs with
  | nil =>
    simp only [Program.phiValues, Except.ok.injEq, Prod.mk.injEq] at h
    rw [← h.2]
    exact .refl p w
  | cons v vs ih =>
    cases arg with
    | none => simp [Program.phiValues] at h
    | some j =>
      simp only [Program.phiValues, bind, Except.bind] at h
      split at h
      next => cases h
      next r hr =>
        simp only [Except.ok.injEq, Prod.mk.injEq] at h
        rw [← h.2]
        exact (readArg_extends p i regs w _).trans (ih hr)

/-! ## Operations -/

/-- What an operation may do: it makes an object on the stack, frees an object, or leaves all objects
as they are. -/
def Effect.Alters (p : Program) (w : World) (frees : Word → Prop) : Effect → Prop
  | .slot addr w' => w.Follows p 1 w' ∧
    ∃ mem size, w.memory.Extends mem ∧ mem.alloc size .stack = .ok (addr, w'.memory)
  | .value _ w' | .none w' => w.Follows p 1 w' ∧ (w.memory.Extends w'.memory ∨
    ∃ addr mem, frees addr ∧ w.memory.Extends mem ∧ mem.free addr = .ok w'.memory)
  | .exit _ w' | .fault _ w' => w.Extends p w'

theorem World.Extends.harmless {frees : Word → Prop} (h : w.Extends p w') :
    (Effect.none w').Alters p w frees :=
  ⟨h.follows_one, .inl h.memory⟩

theorem exec_alters (p : Program) (i : Nat) (regs : Registers) (w : World) (v : Ssa.Value) :
    (exec (p.module i) i regs w v).Alters p w fun addr =>
      v.op = .free ∧ addr = (World.readAll (p.module i) i regs w v.args).1.getD 0 0 := by
  have hread := readAll_extends p i regs w v.args
  unfold exec
  split
  next =>
    have hcount : ∀ a, w.Extends p (readArg (p.module i) i regs w a).2 := readArg_extends p i regs w
    cases v.args with
    | nil =>
      dsimp only
      split
      · exact .refl p w
      · split
        next halloc =>
          exact ⟨(World.Extends.refl p w).change (size_alloc halloc), _, _, .refl _, halloc⟩
        next => exact .refl p w
    | cons a as =>
      dsimp only
      split
      · exact hcount a
      · split
        next halloc =>
          exact ⟨(hcount a).change (size_alloc halloc), _, _, (hcount a).memory, halloc⟩
        next => exact hcount a
  next =>
    split
    next halloc =>
      exact ⟨(World.Extends.refl p w).change (size_alloc halloc),
        .inl (.alloc halloc (by decide))⟩
    next => exact .refl p w
  next =>
    exact World.Extends.harmless ((readArg_extends ..).trans (readArg_extends ..))
  next =>
    dsimp only
    split
    next hop =>
      split
      next hfree =>
        exact ⟨hread.change (.step (Nat.le_of_eq (size_free hfree))),
          .inr ⟨_, _, ⟨hop, rfl⟩, hread.memory, hfree⟩⟩
      next => exact hread
    next =>
      split
      next => exact hread.harmless
      next => exact hread
    next =>
      split
      next hstore =>
        have hsegs := segments_store hstore
        exact ⟨hread.change (by rw [hsegs]; exact Nat.le_succ _), .inl (hread.memory.trans (.of_segments hsegs))⟩
      next => exact hread
    next =>
      split
      next => exact hread.harmless
      next => exact hread

theorem external_alters (p : Program) (name : String) (args : List Printf.Arg) (w : World) :
    (external name args w).Alters p w fun addr =>
      name = Target.free.name ∧ args.map (·.value) = [addr] := by
  have hrefl := World.Extends.refl p w
  unfold external
  split
  next =>
    split
    · exact World.Extends.harmless ⟨⟨rfl, rfl, fun _ => .inl, Nat.le_refl _⟩, .refl _⟩
    · exact hrefl
  next => exact hrefl
  next =>
    split
    next halloc =>
      exact ⟨hrefl.change (size_alloc halloc), .inl (.alloc halloc (by decide))⟩
    next => exact hrefl
  next =>
    split
    next hfree =>
      exact ⟨hrefl.change (.step (Nat.le_of_eq (size_free hfree))),
        .inr ⟨_, _, ⟨rfl, rfl⟩, .refl _, hfree⟩⟩
    next => exact hrefl
  all_goals exact hrefl

end SsaCompiler.Machine
