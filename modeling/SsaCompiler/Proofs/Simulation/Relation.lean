import SsaCompiler.Proofs.Simulation.Slots

/-!
# How machine and evaluator correspond

While a machine runs a function that was lowered from a method, its innermost frame corresponds to a
state of lowering: the values in front of which it stands are those that lowering had put into the
current block by then. `Rel` says this, and that every variable with a value has a slot of its own
whose cell holds the value.

The steps of the machine are paid for from the budget of the evaluation. The slots of the entry block
that are still to be executed are paid for in advance.
-/

namespace SsaCompiler.Simulation

open List
open Ssa (ValueRef BlockRef Value Module)
open Core (Store Locals)
open Lowering (Stands Open Adds Extends Emitted Slotted Consted Blocked)
open Machine

/-! ## Correspondence -/

variable {m : Module} {base bits : Nat} {μ μ' : Memory} {regs regs' : Registers} {v r a : ValueRef}
  {l : Locals}
variable {C : Context} {A : Act} {b d : BlockRef} {s t : LoweringState} {n k : Nat}
  {σ σ' : Store} {w w' w'' : World} {fr fr' fr'' : Frame} {callers : List Frame}

/-- The values of the entry block that have been executed when the machine stands in block `b`. -/
def ready (C : Context) (A : Act) (b : BlockRef) (s : LoweringState) : List ValueRef :=
  if b = A.entry then (s.module.block A.entry).values else (C.module.block A.entry).values

/-- The number of slots that are still to be executed. -/
def pending (C : Context) (A : Act) (b : BlockRef) (s : LoweringState) : Nat :=
  if b = A.entry then C.module.slotCount A.entry - s.module.slotCount A.entry else 0

/-- Every variable with a value has a slot whose cell holds the value. -/
def Vars (C : Context) (A : Act) (s : LoweringState) (l : Locals) (μ : Memory)
    (regs : Registers) : Prop :=
  ∀ id a, l id = some a → ∃ st, s.storage.lookup id = some st ∧
    st.addr ∈ (s.module.block A.entry).values ∧
    C.module.typeOf st.addr = .pointer (.int (C.setting.type id).bits) ∧
    (C.setting.type id).isPlain ∧ (C.setting.type id).Holds a ∧
    μ.content (cellOf regs st.addr) (C.setting.type id).bits = Word.ofInt a

/-- The innermost frame of a machine corresponds to a state of lowering in block `b` and a state of
evaluation. There are `n` units to spare. -/
structure Rel (C : Context) (A : Act) (b : BlockRef) (s : LoweringState) (n : Nat) (σ : Store)
    (w : World) (fr : Frame) : Prop where
  stands : Stands A.func A.entry b s
  opened : Open b s
  functions : s.functions = C.functions
  grows : C.Takes s
  func : fr.func = ⟨0, A.func⟩
  block : fr.block = b
  rest : fr.rest = (C.module.block b).values.drop (s.module.block b).values.length
  steps : w.steps + n + pending C A b s + σ.budget ≤ C.total
  space : w.memory.segments.size + A.held + pending C A b s + σ.room < 2 ^ 32
  sits : Sits C A (ready C A b s) w fr
  vars : Vars C A s σ.locals w.memory fr.regs

/-- Code that was lowered from a state on leaves earlier registers alone, and the objects that were
there when the function was called. -/
structure Kept (s : LoweringState) (base : Nat) (w : World) (fr : Frame) (w' : World)
    (fr' : Frame) : Prop where
  regs : ∀ v < s.module.values.size, fr'.regs.getD v 0 = fr.regs.getD v 0
  memory : Memory.Keeps base w.memory w'.memory

namespace Kept

theorem refl (s : LoweringState) (base : Nat) (w : World) (fr : Frame) : Kept s base w fr w fr :=
  ⟨fun _ _ => rfl, .refl _ _⟩

theorem trans (h : Kept s base w fr w' fr') (h' : Kept s base w' fr' w'' fr'') :
    Kept s base w fr w'' fr'' :=
  ⟨fun v hv => (h'.regs v hv).trans (h.regs v hv), h.memory.trans h'.memory⟩

theorem since (h : Kept t base w fr w' fr') (hg : Module.Grows s.module t.module) :
    Kept s base w fr w' fr' :=
  ⟨fun v hv => h.regs v (Nat.lt_of_lt_of_le hv hg.values), h.memory⟩

theorem reads (h : Kept s base w fr w' fr') (hx : Reads m fr.regs v x)
    (hv : v < s.module.values.size) : Reads m fr'.regs v x :=
  hx.congr (h.regs v hv)

end Kept

theorem ready_of_ne (h : b ≠ A.entry) : ready C A b s = (C.module.block A.entry).values :=
  if_neg h

theorem ready_entry : ready C A A.entry s = (s.module.block A.entry).values :=
  if_pos rfl

theorem mem_code {m' : Module} (hg : Module.Grows m m') (hb : b < m.blocks.size)
    (hv : v ∈ (m.block b).values) : v ∈ (m'.block b).values := by
  obtain ⟨more, hmore, -, -⟩ := hg.code b hb
  rw [hmore]
  exact mem_append_left _ hv

theorem mem_ready (hg : C.Takes s) (he : A.entry < s.module.blocks.size)
    (hv : v ∈ (s.module.block A.entry).values) : v ∈ ready C A b s := by
  unfold ready
  split
  · exact hv
  · exact mem_code hg he hv

namespace Rel

section

variable (h : Rel C A b s n σ w fr)

include h

theorem mono (hk : k ≤ n) : Rel C A b s k σ w fr :=
  { h with steps := by have := h.steps; omega }

theorem spend (hk : k ≤ σ.budget) :
    Rel C A b s (n + k) { σ with budget := σ.budget - k } w fr :=
  { h with
    steps := by
      have := h.steps
      show w.steps + (n + k) + pending C A b s + (σ.budget - k) ≤ C.total
      omega }

theorem restrict (hl : ∀ id a, l id = some a → σ.locals id = some a) :
    Rel C A b s n { σ with locals := l } w fr :=
  { h with vars := fun id a ha => h.vars id a (hl id a ha) }

/-- All places of cells are small enough for addresses. -/
theorem size_lt : w.memory.segments.size < 2 ^ 32 := by
  have := h.space
  omega

end

theorem le_limit (h : Rel C A b s (n + 1) σ w fr) : (w.steps : Int) + 1 ≤ C.limit := by
  have := h.steps
  have := C.le_limit
  omega

theorem module_eq (h : Rel C A b s n σ w fr) : fr.func.module = 0 := by
  rw [h.func]

theorem pending_le (h : Rel C A b s n σ w fr) (hg : Module.Grows s.module t.module) :
    pending C A b t ≤ pending C A b s := by
  have := h.stands.tidy.slotCount_le hg h.stands.entryBound
  unfold pending
  split
  · omega
  · exact Nat.le_refl _

/-- A variable that has storage has a slot that has been executed. -/
theorem isIntSlot_of_stored {id : Nat} {st : Storage} (h : Rel C A b s n σ w fr)
    (hst : s.storage.lookup id = some st) : C.module.isIntSlot st.addr :=
  h.grows.isIntSlot (h.stands.stored id st hst).2

/-! ### Values -/

variable {z : Value}

/-- The value that lowering appends next is the one that the machine executes next. -/
theorem next (h : Rel C A b s n σ w fr) (g : Emitted A.func A.entry b s z r t) (hg : C.Takes t) :
    fr.rest = r :: (C.module.block b).values.drop (t.module.block b).values.length ∧
      (C.module.value r).Like z := by
  obtain ⟨more, hmore, -, -⟩ := hg.code b g.adds.stands.bound
  refine ⟨?_, (hg.value r g.lt).trans g.new⟩
  rw [h.rest, hmore, g.code, append_assoc, drop_left, length_append,
    length_singleton, ← append_assoc, ← length_singleton (a := r),
    ← length_append, drop_left]
  rfl

/-- The frame behind a value. -/
def behind (C : Context) (b : BlockRef) (t : LoweringState) (fr : Frame) (regs : Registers) :
    Frame :=
  { fr with rest := (C.module.block b).values.drop (t.module.block b).values.length, regs := regs }

/-- What is to be shown when the machine has gone behind a value that is no slot. -/
theorem resume (h : Rel C A b s k σ w fr) (g : Emitted A.func A.entry b s z r t)
    (hg : C.Takes t) (hop : z.op ≠ .alloca)
    (hsteps : w'.steps + n + pending C A b s + σ'.budget ≤ C.total)
    (hspace : w'.memory.segments.size + A.held + pending C A b s + σ'.room < 2 ^ 32)
    (hsize : w.memory.segments.size ≤ w'.memory.segments.size) (hdepth : w'.depth = w.depth)
    (hcell : ∀ k bits, w.memory.IsCell k bits → w'.memory.IsCell k bits)
    (hregs : ∀ v, v ≠ r → regs'.getD v 0 = fr.regs.getD v 0)
    (hvars : Vars C A t σ'.locals w'.memory regs') :
    Rel C A b t n σ' w' (behind C b t fr regs') := by
  have hr : C.module.isIntSlot r = false := by
    unfold Module.isIntSlot
    rw [((h.next g hg).2).op]
    simp [hop]
  refine ⟨g.adds.stands, g.stays, g.adds.functions.trans h.functions, hg, h.func, h.block, rfl, ?_, ?_,
    ⟨Nat.le_trans h.sits.room hsize, hdepth.trans h.sits.depth, ?_, ?_⟩, hvars⟩
  · have := h.pending_le g.adds.grows
    omega
  · have := h.pending_le g.adds.grows
    omega
  · -- the new value is no slot
    have hsub : ∀ v ∈ ready C A b t, C.module.isIntSlot v → v ∈ ready C A b s := by
      intro v hv hslot
      unfold ready at hv ⊢
      split at hv
      next hb =>
        rw [← hb, g.code] at hv
        rcases mem_append.mp hv with hv | hv
        · rw [if_pos hb, ← hb]
          exact hv
        · rw [mem_singleton.mp hv, hr] at hslot
          exact absurd hslot Bool.false_ne_true
      next hb =>
        rw [if_neg hb]
        exact hv
    refine (h.sits.cells.mono hsub).congr (fun v _ hslot => hregs v ?_) fun k bits _ => hcell k bits
    rintro rfl
    exact absurd (hr.symm.trans hslot) Bool.false_ne_true
  · intro a ha
    obtain ⟨k, hk, hlt, hak⟩ := h.sits.objects a ha
    exact ⟨k, hk, Nat.lt_of_lt_of_le hlt hsize, hak⟩

/-- The machine has executed a value that is no slot, in one step. -/
theorem emit (h : Rel C A b s (n + 1) σ w fr) (g : Emitted A.func A.entry b s z r t)
    (hg : C.Takes t) (hop : z.op ≠ .alloca)
    (hsteps : w'.steps = w.steps + 1) (hsegs : w'.memory.segments = w.memory.segments)
    (hdepth : w'.depth = w.depth) (hbudget : σ'.budget = σ.budget) (hroom : σ'.room = σ.room)
    (hregs : ∀ v, v ≠ r → regs'.getD v 0 = fr.regs.getD v 0)
    (hvars : Vars C A t σ'.locals w'.memory regs') :
    Rel C A b t n σ' w' (behind C b t fr regs') := by
  refine h.resume g hg hop ?_ ?_ (Nat.le_of_eq (by rw [hsegs])) hdepth ?_ hregs hvars
  · have := h.steps
    omega
  · rw [hsegs, hroom]
    exact h.space
  · exact fun k bits hk => hk.congr (by rw [hsegs])

end Rel

/-- Variables are still there after further code, if their registers and cells are. -/
theorem Vars.move {l : Locals} (h : Vars C A s l μ regs)
    (hstorage : ∀ id st, s.storage.lookup id = some st → t.storage.lookup id = some st)
    (hentry : ∀ v ∈ (s.module.block A.entry).values, v ∈ (t.module.block A.entry).values ∧
      regs'.getD v 0 = regs.getD v 0)
    (hcontent : ∀ id st, s.storage.lookup id = some st → st.addr ∈ (s.module.block A.entry).values →
      ∀ bits, μ'.content (cellOf regs st.addr) bits = μ.content (cellOf regs st.addr) bits) :
    Vars C A t l μ' regs' := by
  intro id a ha
  obtain ⟨st, hst, hmem, hty, hplain, hholds, hval⟩ := h id a ha
  obtain ⟨hmem', hreg⟩ := hentry st.addr hmem
  refine ⟨st, hstorage id st hst, hmem', hty, hplain, hholds, ?_⟩
  rw [cellOf_congr hreg, hcontent id st hst hmem]
  exact hval

/-- A value denotes an integer of a primitive type. -/
structure Denotes (C : Context) (regs : Registers) (v : ValueRef) (p : Primitive) (a : Int) :
    Prop where
  reads : Reads C.module regs v (Word.ofInt a)
  holds : p.Holds a
  type : C.module.typeOf v = p.machineType

theorem Kept.denotes {p : Primitive} {a : Int} (h : Kept s base w fr w' fr')
    (hv : Denotes C fr.regs v p a) (hlt : v < s.module.values.size) : Denotes C fr'.regs v p a :=
  ⟨h.reads hv.reads hlt, hv.holds, hv.type⟩

/-- Some steps in the innermost frame that leave alone what code from a state on leaves alone. -/
structure Moves (C : Context) (s : LoweringState) (base : Nat) (callers : List Frame) (w : World)
    (fr : Frame) (w' : World) (fr' : Frame) : Prop where
  reaches : Reaches C.program C.limit ⟨w, fr :: callers⟩ ⟨w', fr' :: callers⟩
  kept : Kept s base w fr w' fr'

namespace Moves

theorem refl (s : LoweringState) (base : Nat) : Moves C s base callers w fr w fr :=
  ⟨.refl, .refl _ _ _ _⟩

theorem trans (h : Moves C s base callers w fr w' fr')
    (h' : Moves C s base callers w' fr' w'' fr'') : Moves C s base callers w fr w'' fr'' :=
  ⟨h.reaches.trans h'.reaches, h.kept.trans h'.kept⟩

theorem since (h : Moves C t base callers w fr w' fr') (hg : Module.Grows s.module t.module) :
    Moves C s base callers w fr w' fr' :=
  ⟨h.reaches, h.kept.since hg⟩

end Moves

namespace Rel

variable {z : Value} {x : Word}

theorem vars_extends (h : Rel C A b s n σ w fr) (hext : Extends s t)
    (hregs : ∀ v < s.module.values.size, regs'.getD v 0 = fr.regs.getD v 0)
    (hcontent : ∀ k < w.memory.segments.size, ∀ bits,
      μ'.content k bits = w.memory.content k bits) : Vars C A t σ.locals μ' regs' := by
  refine h.vars.move hext.storage (fun v hv => ⟨?_, ?_⟩) fun id st hst hmem => hcontent _ ?_
  · exact mem_code hext.grows h.stands.entryBound hv
  · exact hregs v (h.stands.tidy.inside A.entry h.stands.entryBound v hv)
  · have hslot := h.isIntSlot_of_stored hst
    exact (h.sits.cells.placed st.addr (mem_ready h.grows h.stands.entryBound hmem) hslot).lt_size
      hslot

/-- Whether a value has a register and changes nothing else. -/
def isValue (op : Ssa.Op) : Bool :=
  isSimple op && op != .alloca && op != .constInt && op != .constFloat && op != .constNull
    && op != .global

theorem value (h : Rel C A b s (n + 1) σ w fr) (g : Emitted A.func A.entry b s z r t)
    (hg : C.Takes t) (hop : isValue z.op)
    (hx : exec C.module 0 fr.regs w.tick z = .value x w.tick) :
    ∃ fr', Moves C s A.base callers w fr w.tick fr' ∧ Rel C A b t n σ w.tick fr' ∧
      Reads C.module fr'.regs r x := by
  simp only [isValue, Bool.and_eq_true, bne_iff_ne, ne_eq] at hop
  obtain ⟨⟨⟨⟨⟨hsimple, halloca⟩, h₁⟩, h₂⟩, h₃⟩, h₄⟩ := hop
  obtain ⟨hrest, hlike⟩ := h.next g hg
  have hregs : ∀ v, v ≠ r → (fr.regs.insert r x).getD v 0 = fr.regs.getD v 0 :=
    fun v hv => getD_insert_of_ne hv
  have hold : ∀ v < s.module.values.size, (fr.regs.insert r x).getD v 0 = fr.regs.getD v 0 :=
    fun v hv => hregs v (g.ref ▸ Nat.ne_of_lt hv)
  have hstep : C.program.step C.limit ⟨w, fr :: callers⟩ = _ :=
    step_simple h.module_eq hrest hlike hsimple h.le_limit
  rw [hx] at hstep
  refine ⟨behind C b t fr (fr.regs.insert r x), ⟨?_, hold, .refl _ _⟩, ?_, ?_⟩
  · exact .single ⟨hstep, rfl⟩
  · exact h.emit g hg halloca rfl rfl rfl rfl rfl hregs
      (h.vars_extends (.of_adds g.adds) hold fun _ _ _ => rfl)
  · refine InRegister.reads ?_ (getD_insert_self _ _ _)
    unfold InRegister
    rw [hlike.op]
    exact ⟨h₁, h₂, h₃, h₄⟩

/-- The register of a slot that has been executed holds the address of its cell. -/
theorem address (h : Rel C A b s n σ w fr) (ha : a ∈ ready C A b s) (hslot : C.module.isIntSlot a) :
    Reads C.module fr.regs a (Memory.startOf (cellOf fr.regs a + 1)) ∧
      cellOf fr.regs a + 1 < 2 ^ 32 := by
  have hplaced := h.sits.cells.placed a ha hslot
  constructor
  · refine InRegister.reads ?_ hplaced.addr
    unfold InRegister
    rw [(slot_cases hslot).1]
    decide
  · have := hplaced.lt_size hslot
    have := h.size_lt
    omega

theorem load {ty : Ssa.Ty} (h : Rel C A b s (n + 1) σ w fr)
    (g : Emitted A.func A.entry b s { op := .load, type := ty, args := [some a] } r t)
    (hg : C.Takes t) (ha : a ∈ ready C A b s)
    (hslot : C.module.isIntSlot a) (hty : C.module.typeOf a = .pointer (.int bits))
    (hload : ty = .int bits) :
    ∃ fr', Moves C s A.base callers w fr w.tick fr' ∧ Rel C A b t n σ w.tick fr' ∧
      Reads C.module fr'.regs r (w.memory.content (cellOf fr.regs a) bits) := by
  obtain ⟨hreads, hlt⟩ := h.address ha hslot
  refine h.value g hg (by rfl) (exec_load hreads ?_)
  subst hload
  exact ((h.sits.cells.placed a ha hslot).cell bits hty).load hlt

/-- The machine stores an integer into a slot. The variables may be others afterwards: those that
live in the slot have the new value. -/
theorem store {a v : ValueRef} {p : Primitive} {y : Int} {l : Locals}
    (h : Rel C A b s (n + 1) σ w fr)
    (g : Emitted A.func A.entry b s { op := .store, type := .void, args := [some a, some v] } r t)
    (hg : C.Takes t) (ha : a ∈ ready C A b s)
    (hslot : C.module.isIntSlot a) (hty : C.module.typeOf a = .pointer (.int p.bits))
    (hp : p.isPlain) (hv : Denotes C fr.regs v p y)
    (hl : ∀ id x, l id = some x → ∃ st, s.storage.lookup id = some st ∧
      (st.addr = a ∧ x = y ∧ C.setting.type id = p ∧ a ∈ (s.module.block A.entry).values ∨
        st.addr ≠ a ∧ σ.locals id = some x)) :
    ∃ w' fr', Moves C s A.base callers w fr w' fr' ∧ Rel C A b t n { σ with locals := l } w' fr' ∧
      w'.memory.content (cellOf fr'.regs a) p.bits = Word.ofInt y := by
  obtain ⟨hrest, hlike⟩ := h.next g hg
  obtain ⟨hreads, hlt⟩ := h.address ha hslot
  have hplaced := h.sits.cells.placed a ha hslot
  have htype : C.module.typeOf v = .int p.bits :=
    hv.type.trans (Primitive.machineType_of_isPlain hp)
  have hstep : C.program.step C.limit ⟨w, fr :: callers⟩ = _ :=
    step_simple h.module_eq hrest hlike (by rfl) h.le_limit
  rw [exec_store (w := w.tick) hreads hv.reads htype
    ((hplaced.cell p.bits hty).store hlt (Word.ofInt y))] at hstep
  have hself := Memory.content_withContent_self (m := w.memory) (k := cellOf fr.regs a) hp hv.holds
  refine ⟨{ w.tick with memory := w.memory.withContent (cellOf fr.regs a) p.bits (Word.ofInt y) },
    behind C b t fr fr.regs, ⟨.single ⟨hstep, rfl⟩, fun _ _ => rfl, .withContent hplaced.base⟩,
    h.emit g hg (by simp) rfl (w.memory.segments_withContent ..) rfl rfl rfl (fun _ _ => rfl) ?_, hself⟩
  intro id x hx
  obtain ⟨st, hst, ⟨hsta, rfl, htyp, hmem⟩ | ⟨hne, hσ⟩⟩ := hl id x hx
  · -- a variable that lives in the slot
    refine ⟨st, g.adds.storage id st hst, ?_, ?_, ?_, ?_, ?_⟩
    · rw [hsta]
      exact mem_code g.adds.grows h.stands.entryBound hmem
    · rw [hsta, htyp]
      exact hty
    · rw [htyp]
      exact hp
    · rw [htyp]
      exact hv.holds
    · rw [hsta, htyp]
      exact hself
  · -- any other variable lives in another cell
    obtain ⟨st', hst', hmem, htyp, hplain, hholds, hval⟩ := h.vars id x hσ
    obtain rfl : st' = st := Option.some.inj (hst'.symm.trans hst)
    refine ⟨st', g.adds.storage id st' hst, ?_, htyp, hplain, hholds, ?_⟩
    · exact mem_code g.adds.grows h.stands.entryBound hmem
    · refine (Memory.content_withContent_of_ne fun heq => hne ?_).trans hval
      exact (h.sits.cells.apart a ha st'.addr (mem_ready h.grows h.stands.entryBound hmem) hslot
        (h.isIntSlot_of_stored hst) heq).symm

/-! ### Slots, constants and blocks -/

/-- What is added elsewhere does not concern the machine. -/
theorem idle (h : Rel C A b s n σ w fr) (hs : Stands A.func A.entry b t) (ho : Open b t)
    (hext : Extends s t) (hg : C.Takes t)
    (hcode : (t.module.block b).values = (s.module.block b).values) : Rel C A b t n σ w fr := by
  have hready : ready C A b t = ready C A b s := by
    unfold ready
    split
    next hb => rw [← hb, hcode]
    next => rfl
  refine ⟨hs, ho, hext.functions.trans h.functions, hg, h.func, h.block, ?_, ?_, ?_, ?_,
    h.vars_extends hext (fun _ _ => rfl) fun _ _ _ => rfl⟩
  · rw [hcode]
    exact h.rest
  · have := h.steps
    have := h.pending_le hext.grows
    omega
  · have := h.space
    have := h.pending_le hext.grows
    omega
  · rw [hready]
    exact h.sits

theorem aside (h : Rel C A b s n σ w fr) (ha : Adds A.func A.entry b s b t k)
    (hg : C.Takes t) (hb : t.module.block b = s.module.block b) :
    Rel C A b t n σ w fr :=
  h.idle ha.stands (by unfold Open; rw [hb]; exact h.opened) (.of_adds ha) hg (by rw [hb])

theorem const {ty : Ssa.Ty} {i : Int} (h : Rel C A b s n σ w fr)
    (g : Consted A.func A.entry b s ty i r t) (hg : C.Takes t) :
    Rel C A b t n σ w fr ∧ Reads C.module fr.regs r ((Word.ofInt i).wrap ty.bits) ∧
      C.module.typeOf r = ty := by
  have hlike : (C.module.value r).Like { op := .constInt, type := ty, auxInt := i } := by
    have := hg.value r g.lt
    rwa [g.new] at this
  exact ⟨h.aside g.adds hg (g.block b), reads_constInt hlike, hlike.type⟩

theorem blocked (h : Rel C A b s n σ w fr) (g : Blocked A.func A.entry b s d t)
    (hg : C.Takes t) : Rel C A b t n σ w fr :=
  h.aside g.adds hg (g.old b h.stands.bound)

theorem slotCount_slotted {bits : Nat} (h : Stands A.func A.entry b s)
    (g : Slotted A.func A.entry b s bits r t) :
    t.module.slotCount A.entry = s.module.slotCount A.entry + 1 := by
  have hold : (s.module.block A.entry).values.countP t.module.isIntSlot =
      s.module.slotCount A.entry := countP_congr fun v hv => by
    rw [Module.isIntSlot_congr (g.adds.grows.value v (h.tidy.inside A.entry h.entryBound v hv))]
  show (t.module.block A.entry).values.countP t.module.isIntSlot = _
  rw [g.code, countP_append, hold, countP_singleton, if_pos g.slot]

/-- A slot of the entry block. The machine executes it now if it stands there, and has executed it
already otherwise. -/
theorem slot {bits : Nat} (h : Rel C A b s n σ w fr) (g : Slotted A.func A.entry b s bits r t)
    (hg : C.Takes t) :
    (∃ w' fr', Moves C s A.base callers w fr w' fr' ∧ Rel C A b t n σ w' fr') ∧
      r ∈ (t.module.block A.entry).values ∧ C.module.isIntSlot r ∧
      C.module.typeOf r = .pointer (.int bits) := by
  have hslot := hg.isIntSlot g.slot
  have hty : C.module.typeOf r = .pointer (.int bits) := (hg.value r g.lt).type.trans g.type
  have hmem : r ∈ (t.module.block A.entry).values := by
    rw [g.code]
    exact mem_append_right _ (mem_singleton_self r)
  refine ⟨?_, hmem, hslot, hty⟩
  by_cases hb : b = A.entry
  · obtain ⟨more, hmore, -, -⟩ := hg.code A.entry g.adds.stands.entryBound
    have hrest : fr.rest =
        r :: (C.module.block b).values.drop (t.module.block b).values.length := by
      rw [h.rest, hb, hmore, g.code, append_assoc, drop_left, length_append,
        length_singleton, ← append_assoc, ← length_singleton (a := r),
        ← length_append, drop_left]
      rfl
    have hcount := slotCount_slotted h.stands g
    have hle := g.adds.stands.tidy.slotCount_le hg g.adds.stands.entryBound
    have hpending : pending C A b t + 1 = pending C A b s := by
      unfold pending
      rw [if_pos hb, if_pos hb]
      omega
    have hsteps := h.steps
    have hspace := h.space
    obtain ⟨w', fr', g'⟩ := h.sits.slot callers h.module_eq hrest hslot (by omega) (by omega)
    have hold : ∀ v < s.module.values.size, fr'.regs.getD v 0 = fr.regs.getD v 0 :=
      fun v hv => g'.regs v (g.ref ▸ Nat.ne_of_lt hv)
    refine ⟨w', fr', ⟨.single g'.step, hold, g'.keeps⟩, ?_⟩
    refine ⟨g.adds.stands, g.stays b h.opened, g.adds.functions.trans h.functions, hg, g'.func.trans h.func,
      g'.block.trans h.block, g'.rest, ?_, ?_, ?_,
      h.vars_extends (.of_adds g.adds) hold fun k _ bits => g'.content ..⟩
    · have := g'.steps
      omega
    · have := g'.size
      omega
    · have hsits := g'.sits
      unfold ready at hsits ⊢
      rw [if_pos hb] at hsits ⊢
      rw [g.code]
      exact hsits
  · exact ⟨w, fr, .refl _ _, h.aside g.adds hg (g.other b hb)⟩

end Rel

end SsaCompiler.Simulation
