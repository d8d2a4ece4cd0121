import SsaCompiler.Proofs.Lowering.MethodShape
import SsaCompiler.Proofs.Machine.Reach

/-!
# Slots at run time

The slots of an entry block become cells when the machine executes them. Every slot gets a cell of its
own, which lies behind the objects that were there when the function was called. Slots at the end of
a block are executed one after the other before the block is left.
-/

namespace SsaCompiler.Simulation

open List
open Ssa (ValueRef BlockRef FuncRef Module)
open Core (Setting)
open Machine

/-! ## Slots -/

/-- The place of the cell whose address is in a register. -/
def cellOf (regs : Registers) (v : ValueRef) : Nat :=
  Memory.segmentOf (regs.getD v 0) - 1

/-- The register of a slot holds the address of a cell behind `base`. -/
structure Placed (m : Module) (base : Nat) (μ : Memory) (regs : Registers) (v : ValueRef) :
    Prop where
  addr : regs.getD v 0 = Memory.startOf (cellOf regs v + 1)
  base : base ≤ cellOf regs v
  cell : ∀ bits, m.typeOf v = .pointer (.int bits) → μ.IsCell (cellOf regs v) bits

/-- The slots among some values have been executed. Each of them has a cell of its own. -/
structure Slots (m : Module) (base : Nat) (μ : Memory) (regs : Registers) (vs : List ValueRef) :
    Prop where
  placed : ∀ v ∈ vs, m.isIntSlot v → Placed m base μ regs v
  apart : ∀ v ∈ vs, ∀ v' ∈ vs, m.isIntSlot v → m.isIntSlot v' →
    cellOf regs v = cellOf regs v' → v = v'

variable {m : Module} {base : Nat} {μ μ' : Memory} {regs regs' : Registers} {vs : List ValueRef}
  {v r : ValueRef}

theorem cellOf_congr (h : regs'.getD v 0 = regs.getD v 0) : cellOf regs' v = cellOf regs v := by
  unfold cellOf
  rw [h]

theorem Placed.lt_size (h : Placed m base μ regs v) (hv : m.isIntSlot v) :
    cellOf regs v < μ.segments.size := by
  obtain ⟨-, -, bits, -, hty⟩ := slot_cases hv
  exact (h.cell bits hty).lt_size

theorem Placed.congr (h : Placed m base μ regs v) (hreg : regs'.getD v 0 = regs.getD v 0)
    (hcell : ∀ k bits, base ≤ k → μ.IsCell k bits → μ'.IsCell k bits) :
    Placed m base μ' regs' v := by
  have hc := cellOf_congr hreg
  exact ⟨by rw [hreg, hc]; exact h.addr, by rw [hc]; exact h.base,
    fun bits hty => by rw [hc]; exact hcell _ bits h.base (h.cell bits hty)⟩

/-- Slots stay where they are if their registers and cells do. -/
theorem Slots.congr (h : Slots m base μ regs vs)
    (hreg : ∀ v ∈ vs, m.isIntSlot v → regs'.getD v 0 = regs.getD v 0)
    (hcell : ∀ k bits, base ≤ k → μ.IsCell k bits → μ'.IsCell k bits) :
    Slots m base μ' regs' vs := by
  constructor
  · intro v hv hslot
    exact (h.placed v hv hslot).congr (hreg v hv hslot) hcell
  · intro v hv v' hv' hslot hslot' heq
    rw [cellOf_congr (hreg v hv hslot), cellOf_congr (hreg v' hv' hslot')] at heq
    exact h.apart v hv v' hv' hslot hslot' heq

theorem Slots.mono {vs' : List ValueRef} (h : Slots m base μ regs vs)
    (hsub : ∀ v ∈ vs', m.isIntSlot v → v ∈ vs) : Slots m base μ regs vs' := by
  constructor
  · exact fun v hv hslot => h.placed v (hsub v hv hslot) hslot
  · exact fun v hv v' hv' hslot hslot' =>
      h.apart v (hsub v hv hslot) v' (hsub v' hv' hslot') hslot hslot'

theorem getD_insert_self (regs : Registers) (v : ValueRef) (x : Word) :
    (regs.insert v x).getD v 0 = x := by
  simp

theorem getD_insert_of_ne {x : Word} (h : v ≠ r) : (regs.insert r x).getD v 0 = regs.getD v 0 := by
  rw [Std.HashMap.getD_insert]
  simp [Ne.symm h]

theorem isCell_withCell {bits bits' k : Nat} (h : μ.IsCell k bits) :
    (μ.withCell bits').IsCell k bits :=
  h.congr ((Memory.Keeps.withCell (Nat.le_refl μ.segments.size)).segment k h.lt_size)

theorem Slots.add {bits : Nat} (h : Slots m base μ regs vs) (hty : m.typeOf r = .pointer (.int bits))
    (hbase : base ≤ μ.segments.size) (hsize : μ.segments.size + 1 < 2 ^ 32) :
    Slots m base (μ.withCell bits)
      (regs.insert r (Memory.startOf (μ.segments.size + 1))) (vs ++ [r]) := by
  have hr : cellOf (regs.insert r (Memory.startOf (μ.segments.size + 1))) r = μ.segments.size := by
    unfold cellOf
    rw [getD_insert_self, Memory.segmentOf_startOf hsize]
    rfl
  have hold : ∀ {v}, v ≠ r →
      cellOf (regs.insert r (Memory.startOf (μ.segments.size + 1))) v = cellOf regs v :=
    fun hv => cellOf_congr (getD_insert_of_ne hv)
  have hmem : ∀ {v}, v ∈ vs ++ [r] → v ≠ r → v ∈ vs := fun hv hne =>
    (mem_append.mp hv).resolve_right fun hr => hne (mem_singleton.mp hr)
  -- the new cell lies behind all others
  have hlt : ∀ {v}, v ∈ vs ++ [r] → v ≠ r → m.isIntSlot v → cellOf regs v < μ.segments.size :=
    fun hv hne hslot => (h.placed _ (hmem hv hne) hslot).lt_size hslot
  constructor
  · intro v hv hslot
    by_cases hvr : v = r
    · subst hvr
      refine ⟨by rw [hr, getD_insert_self], by rw [hr]; exact hbase, fun bits' hty' => ?_⟩
      obtain rfl : bits' = bits := by
        have := hty'.symm.trans hty
        injection this with this
        injection this
      rw [hr]
      exact μ.isCell_withCell_self bits'
    · exact (h.placed v (hmem hv hvr) hslot).congr (getD_insert_of_ne hvr)
        fun k _ _ hk => isCell_withCell hk
  · intro v hv v' hv' hslot hslot' heq
    by_cases hvr : v = r
    · by_cases hvr' : v' = r
      · rw [hvr, hvr']
      · have := hlt hv' hvr' hslot'
        rw [hvr, hr, hold hvr'] at heq
        omega
    · by_cases hvr' : v' = r
      · have := hlt hv hvr hslot
        rw [hvr', hr, hold hvr] at heq
        omega
      · rw [hold hvr, hold hvr'] at heq
        exact h.apart v (hmem hv hvr) v' (hmem hv' hvr') hslot hslot' heq

/-! ## Modules that are run -/

/-- A finished module without phi values, the functions of its methods, and a limit of steps that
covers the whole budget of an evaluation. -/
structure Context where
  module : Module
  functions : List MethodFunc
  setting : Setting
  methods : List Core.Method
  limit : Int
  total : Nat
  noPhi : NoPhi module
  complete : Lowering.Complete setting functions
  le_limit : (total : Int) ≤ limit

/-- What has been lowered is part of the finished module. -/
abbrev Context.Takes (C : Context) (s : LoweringState) : Prop :=
  Module.Grows s.module C.module

/-- The program that a machine runs. -/
def Context.program (C : Context) : Program :=
  ⟨C.module, []⟩

/-! ## Executing slots -/

/-- An active function: its place, its entry block, the number of objects that were there when it was
called, the number of those that its callers are still to make, and the depth of its call. -/
structure Act where
  func : FuncRef
  entry : BlockRef
  /-- The number of objects at the start. -/
  base : Nat
  /-- The number of slots of callers that are still to be executed. -/
  held : Nat
  /-- The number of active functions, with this one. -/
  depth : Nat

variable {C : Context} {A : Act} {w w' : World} {fr fr' : Frame}

/-- There is a cell for each of some slots, and the objects of the frame lie behind those that were
there at the start. -/
structure Sits (C : Context) (A : Act) (vs : List ValueRef) (w : World) (fr : Frame) : Prop where
  room : A.base ≤ w.memory.segments.size
  depth : w.depth = A.depth
  cells : Slots C.module A.base w.memory fr.regs vs
  objects : ∀ a ∈ fr.slots, ∃ k, A.base ≤ k ∧ k < w.memory.segments.size ∧ a = Memory.startOf (k + 1)

/-- The machine has executed a slot. -/
structure SlotStep (C : Context) (A : Act) (vs : List ValueRef) (r : ValueRef)
    (behind : List ValueRef) (callers : List Frame) (w : World) (fr : Frame) (w' : World)
    (fr' : Frame) : Prop where
  step : Quiet C.program C.limit ⟨w, fr :: callers⟩ ⟨w', fr' :: callers⟩
  sits : Sits C A (vs ++ [r]) w' fr'
  func : fr'.func = fr.func
  block : fr'.block = fr.block
  rest : fr'.rest = behind
  regs : ∀ v, v ≠ r → fr'.regs.getD v 0 = fr.regs.getD v 0
  content : ∀ k bits, w'.memory.content k bits = w.memory.content k bits
  keeps : Memory.Keeps A.base w.memory w'.memory
  steps : w'.steps = w.steps + 1
  size : w'.memory.segments.size = w.memory.segments.size + 1

theorem Sits.slot (callers : List Frame) {behind : List ValueRef} (h : Sits C A vs w fr)
    (hf : fr.func.module = 0) (hrest : fr.rest = r :: behind) (hslot : C.module.isIntSlot r)
    (hsteps : w.steps + 1 ≤ C.total) (hspace : w.memory.segments.size + 1 < 2 ^ 32) :
    ∃ w' fr', SlotStep C A vs r behind callers w fr w' fr' := by
  obtain ⟨hop, -, bits, hbits, hty⟩ := slot_cases hslot
  have hlimit : (w.steps : Int) + 1 ≤ C.limit := by
    have := C.le_limit
    omega
  have hsimple : isSimple (C.module.value r).op := by
    rw [hop]
    decide
  have hstep : C.program.step C.limit ⟨w, fr :: callers⟩ = _ :=
    step_simple hf hrest (.refl _) hsimple hlimit
  rw [exec_slot (w := w.tick) hslot hty hbits] at hstep
  have hkeeps : Memory.Keeps A.base w.memory (w.memory.withCell bits) := .withCell h.room
  have hsize : (w.memory.withCell bits).segments.size = w.memory.segments.size + 1 :=
    Array.size_push ..
  refine ⟨{ w.tick with memory := w.memory.withCell bits }, _, ⟨hstep, rfl⟩, ⟨?_, h.depth, ?_, ?_⟩, rfl,
    rfl,
    rfl, fun v hv => getD_insert_of_ne hv, fun k bits => Memory.content_withCell .., hkeeps, rfl,
    hsize⟩
  · exact Nat.le_trans h.room hkeeps.size
  · exact h.cells.add hty h.room hspace
  · intro a ha
    show ∃ k, A.base ≤ k ∧ k < (w.memory.withCell bits).segments.size ∧ _
    rcases mem_cons.mp ha with rfl | ha
    · exact ⟨w.memory.segments.size, h.room, by omega, rfl⟩
    · obtain ⟨k, hk, hlt, hak⟩ := h.objects a ha
      exact ⟨k, hk, by omega, hak⟩

/-- The machine has executed the slots at the end of a block. -/
structure SlotRun (C : Context) (A : Act) (vs more : List ValueRef) (callers : List Frame)
    (w : World) (fr : Frame) (w' : World) (fr' : Frame) : Prop where
  reaches : Reaches C.program C.limit ⟨w, fr :: callers⟩ ⟨w', fr' :: callers⟩
  sits : Sits C A (vs ++ more) w' fr'
  func : fr'.func = fr.func
  block : fr'.block = fr.block
  rest : fr'.rest = []
  regs : ∀ v, v ∉ more → fr'.regs.getD v 0 = fr.regs.getD v 0
  content : ∀ k bits, w'.memory.content k bits = w.memory.content k bits
  keeps : Memory.Keeps A.base w.memory w'.memory
  steps : w'.steps = w.steps + more.length
  size : w'.memory.segments.size = w.memory.segments.size + more.length

theorem Sits.slots (callers : List Frame) {more : List ValueRef} (h : Sits C A vs w fr)
    (hf : fr.func.module = 0) (hrest : fr.rest = more)
    (hslots : ∀ v ∈ more, C.module.isIntSlot v) (hsteps : w.steps + more.length ≤ C.total)
    (hspace : w.memory.segments.size + more.length < 2 ^ 32) :
    ∃ w' fr', SlotRun C A vs more callers w fr w' fr' := by
  induction more generalizing vs w fr with
  | nil =>
    refine ⟨w, fr, .refl, ?_, rfl, rfl, hrest, fun _ _ => rfl, fun _ _ => rfl, .refl _ _, rfl,
      rfl⟩
    rw [append_nil]
    exact h
  | cons r more ih =>
    rw [length_cons] at hsteps hspace
    obtain ⟨w₁, fr₁, g⟩ := h.slot callers hf hrest (hslots r mem_cons_self) (by omega)
      (by omega)
    obtain ⟨w₂, fr₂, g'⟩ := ih g.sits (by rw [g.func]; exact hf) g.rest
      (fun v hv => hslots v (mem_cons_of_mem _ hv)) (by rw [g.steps]; omega)
      (by rw [g.size]; omega)
    refine ⟨w₂, fr₂, .head g.step g'.reaches, ?_, g'.func.trans g.func, g'.block.trans g.block,
      g'.rest, fun v hv => ?_, fun k bits => (g'.content k bits).trans (g.content k bits),
      g.keeps.trans g'.keeps, ?_, ?_⟩
    · have := g'.sits
      rwa [append_assoc] at this
    · rw [mem_cons, not_or] at hv
      exact (g'.regs v hv.2).trans (g.regs v hv.1)
    · rw [g'.steps, g.steps, length_cons]
      omega
    · rw [g'.size, g.size, length_cons]
      omega

end SsaCompiler.Simulation
