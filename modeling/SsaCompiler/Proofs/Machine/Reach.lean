import Mathlib.Data.List.Forall2
import Mathlib.Logic.Relation
import SsaCompiler.Proofs.Machine.Extension
import SsaCompiler.Proofs.Ssa.Growth

/-!
# Runs of a single module

Steps of a machine that runs one module without phi values, one lemma for each kind of step. What a
step does depends on the value that is next, and on nothing else of the module.
-/

namespace SsaCompiler.Machine

open Ssa (ValueRef BlockRef FuncRef)

/-! ## Reaching states -/

/-- A step that writes nothing. -/
def Quiet (p : Program) (limit : Int) (s t : State) : Prop :=
  p.step limit s = .running t ∧ t.world.output = s.world.output

/-- Some steps, which write nothing. -/
abbrev Reaches (p : Program) (limit : Int) : State → State → Prop :=
  Relation.ReflTransGen (Quiet p limit)

theorem output_of_reaches (h : Reaches p limit s t) : t.world.output = s.world.output := by
  induction h with
  | refl => rfl
  | tail _ hstep ih => exact hstep.2.trans ih

theorem run_of_reaches (h : Reaches p limit s t) : p.run limit s = p.run limit t := by
  induction h with
  | refl => rfl
  | tail _ hstep ih =>
    rw [ih, Program.run_eq, Program.advance, hstep.1]

theorem run_of_done {p : Program} {limit : Int} {s : State} {x : Word} {w : World}
    (h : p.step limit s = .done x w) : p.run limit s = (.returned x, w) := by
  rw [Program.run_eq, Program.advance, h]

theorem run_of_stopped {p : Program} {limit : Int} {s t : State} {why : Stop}
    (h : p.step limit s = .stopped why t) :
    p.run limit s = (.stopped why, t.unwind) := by
  rw [Program.run_eq, Program.advance, h]

/-! ## Operands -/

variable {m : Ssa.Module} {limit : Int} {regs : Registers} {v r : ValueRef} {x y c : Word}
  {w : World} {f : Frame} {callers : List Frame} {behind vs : List ValueRef} {b d : BlockRef}
  {ty : Ssa.Ty} {xs : List Word} {g : FuncRef}

/-- Reading a value gives a word, in every world. -/
def Reads (m : Ssa.Module) (regs : Registers) (v : ValueRef) (x : Word) : Prop :=
  ∀ w : World, w.read m 0 regs v = (x, w)

/-- Whether a value is held in a register. -/
def InRegister (m : Ssa.Module) (v : ValueRef) : Prop :=
  (m.value v).op ≠ .constInt ∧ (m.value v).op ≠ .constFloat ∧ (m.value v).op ≠ .constNull ∧
    (m.value v).op ≠ .global

theorem InRegister.reads (h : InRegister m v) (hx : regs.getD v 0 = x) : Reads m regs v x := by
  intro w
  obtain ⟨h₁, h₂, h₃, h₄⟩ := h
  unfold World.read
  dsimp only
  split
  · exact absurd ‹_› h₁
  · exact absurd ‹_› h₂
  · exact absurd ‹_› h₃
  · exact absurd ‹_› h₄
  · rw [hx]

theorem reads_constInt {n : Int} {ty : Ssa.Ty}
    (h : (m.value v).Like { op := .constInt, type := ty, auxInt := n }) :
    Reads m regs v ((Word.ofInt n).wrap ty.bits) := by
  intro w
  unfold World.read
  dsimp only
  rw [h.op, h.auxInt, h.type]

/-- Frames belong to the module that is run. -/
theorem module_alone (hf : f.func.module = 0) : (Program.mk m []).code f.func = m := by
  rw [Program.code, hf]
  rfl

theorem Reads.congr {regs' : Registers} (h : Reads m regs v x)
    (hreg : regs'.getD v 0 = regs.getD v 0) : Reads m regs' v x := by
  intro w
  have hw := h w
  unfold World.read at hw ⊢
  dsimp only at hw ⊢
  split at hw
  all_goals first | (rw [hreg]; exact hw) | exact hw

theorem readAll_of_reads (h : List.Forall₂ (Reads m regs) vs xs) :
    World.readAll m 0 regs w (vs.map some) = (xs, w) := by
  induction h with
  | nil => rfl
  | cons hx _ ih =>
    simp only [List.map_cons, World.readAll, Option.elim_some, hx w, ih]

/-! ## Values -/

theorem exec_congr {x y : Ssa.Value} (h : x.Like y) : exec m 0 regs w x = exec m 0 regs w y := by
  unfold exec compute
  rw [h.op, h.type, h.args, h.auxInt]

/-- Whether a value is executed as a single operation. -/
def isSimple (op : Ssa.Op) : Bool :=
  op != .phi && op != .arg && op != .call

variable {z : Ssa.Value}

theorem step_simple (hf : f.func.module = 0) (hrest : f.rest = v :: behind)
    (hz : (m.value v).Like z) (hop : isSimple z.op) (hlimit : (w.steps : Int) + 1 ≤ limit) :
    (Program.mk m []).step limit ⟨w, f :: callers⟩ =
      match exec m 0 f.regs w.tick z with
      | .value r w => .running ⟨w, { f with rest := behind, regs := f.regs.insert v r } :: callers⟩
      | .slot a w => .running ⟨w, { f with rest := behind, regs := f.regs.insert v a,
                                           slots := a :: f.slots } :: callers⟩
      | .none w => .running ⟨w, { f with rest := behind } :: callers⟩
      | .exit code w => .stopped (.exit code) ⟨w, f :: callers⟩
      | .fault e w => .stopped ((Program.mk m []).opFault f v e) ⟨w, f :: callers⟩ := by
  simp only [isSimple, Bool.and_eq_true, bne_iff_ne, ne_eq] at hop
  rw [← exec_congr hz]
  unfold Program.step
  dsimp only
  rw [hrest, module_alone hf]
  dsimp only
  have h₁ : ((m.value v).op == .phi || (m.value v).op == .arg) = false := by
    simp [hz.op, hop.1.1, hop.1.2]
  rw [h₁, if_neg Bool.false_ne_true, if_neg (by push_cast; omega)]
  rw [hf]
  have h₂ : (m.value v).op ≠ .call := hz.op ▸ hop.2
  split
  · exact absurd ‹_› h₂
  · rfl

theorem exec_load {a : ValueRef} {addr : Word} (ha : Reads m regs a addr)
    (h : w.memory.load addr ty = .ok x) :
    exec m 0 regs w { op := .load, type := ty, args := [some a] } = .value x w := by
  simp [exec, World.readAll, ha w, h]

theorem exec_store {a u : ValueRef} {addr : Word} {mem : Memory} (ha : Reads m regs a addr)
    (hu : Reads m regs u x) (hty : m.typeOf u = ty) (h : w.memory.store addr ty x = .ok mem) :
    exec m 0 regs w { op := .store, type := .void, args := [some a, some u] } =
      .none { w with memory := mem } := by
  simp [exec, World.readAll, ha w, hu w, hty, h]

theorem exec_alloca (hop : z.op = .alloca) (hargs : z.args = []) : exec m 0 regs w z =
    match w.memory.alloc (Number.wrap64 (1 * (z.type.elem?.getD .void).size)) .stack with
    | .ok (addr, memory) => .slot addr { w with memory := memory }
    | .error f => .fault (.memory f) w := by
  unfold exec
  rw [hop, hargs]
  exact if_neg (by decide)

theorem slot_cases (h : m.isIntSlot v) : (m.value v).op = .alloca ∧ (m.value v).args = [] ∧
    ∃ bits ≤ 64, m.typeOf v = .pointer (.int bits) := by
  unfold Ssa.Module.isIntSlot at h
  simp only [Bool.and_eq_true, beq_iff_eq, List.isEmpty_iff] at h
  obtain ⟨⟨hop, hargs⟩, htype⟩ := h
  split at htype
  next bits hty => exact ⟨hop, hargs, bits, by simpa using htype, hty⟩
  next => exact absurd htype Bool.false_ne_true

theorem exec_slot {bits : Nat} (hslot : m.isIntSlot v) (hty : m.typeOf v = .pointer (.int bits))
    (hbits : bits ≤ 64) : exec m 0 regs w (m.value v) =
      .slot (Memory.startOf (w.memory.segments.size + 1))
        { w with memory := w.memory.withCell bits } := by
  obtain ⟨hop, hargs, -⟩ := slot_cases hslot
  have helem : (m.value v).type.elem? = some (.int bits) := by
    rw [show (m.value v).type = .pointer (.int bits) from hty]
    rfl
  rw [exec_alloca hop hargs, helem, Option.getD_some, w.memory.alloc_int hbits]

/-- Whether a value only depends on its operands. -/
def isComputed (op : Ssa.Op) : Bool :=
  op != .alloca && op != .malloc && op != .select && op != .free && op != .load && op != .store

theorem exec_computed (hop : isComputed z.op) (hargs : z.args = vs.map some)
    (h : List.Forall₂ (Reads m regs) vs xs) :
    exec m 0 regs w z =
      match compute z ((vs.head?.map m.typeOf).getD .void) xs with
      | .ok x => .value x w
      | .error f => .fault f w := by
  simp only [isComputed, Bool.and_eq_true, bne_iff_ne, ne_eq] at hop
  obtain ⟨⟨⟨⟨⟨h₁, h₂⟩, h₃⟩, h₄⟩, h₅⟩, h₆⟩ := hop
  have hfirst : ((z.args.getD 0 none).map m.typeOf).getD .void =
      (vs.head?.map m.typeOf).getD .void := by
    rw [hargs]
    cases vs <;> rfl
  unfold exec
  split
  · exact absurd ‹_› h₁
  · exact absurd ‹_› h₂
  · exact absurd ‹_› h₃
  · rw [hargs, readAll_of_reads h]
    dsimp only
    split
    · exact absurd ‹_› h₄
    · exact absurd ‹_› h₅
    · exact absurd ‹_› h₆
    · cases hc : compute z ((vs.head?.map m.typeOf).getD .void) xs <;>
        simp only [← hargs, hfirst, hc]

/-! ## Blocks -/

/-- A module without phi values. -/
def NoPhi (m : Ssa.Module) : Prop :=
  ∀ v, (m.value v).op ≠ .phi

/-- A frame at the start of a block. -/
def Frame.atBlock (f : Frame) (m : Ssa.Module) (b : BlockRef) : Frame :=
  { f with block := b, rest := (m.block b).values }

theorem enter_of_noPhi (hphi : NoPhi m) (hf : f.func.module = 0) {source : Option BlockRef} :
    (Program.mk m []).enter w f callers source b = .running ⟨w, f.atBlock m b :: callers⟩ := by
  have hnone : ((m.block b).values.filter fun v => (m.value v).op == .phi) = [] :=
    List.filter_eq_nil_iff.mpr fun v _ => by simpa using hphi v
  unfold Program.enter
  rw [module_alone hf]
  dsimp only
  rw [hnone]
  rfl

theorem step_leave (hrest : f.rest = []) :
    (Program.mk m []).step limit ⟨w, f :: callers⟩ = (Program.mk m []).leave w f callers := by
  unfold Program.step
  dsimp only
  rw [hrest]

theorem step_jump (hphi : NoPhi m) (hf : f.func.module = 0) (hrest : f.rest = [])
    (hkind : (m.block f.block).kind = .plain) (hsuccs : (m.block f.block).succs = [d]) :
    (Program.mk m []).step limit ⟨w, f :: callers⟩ = .running ⟨w, f.atBlock m d :: callers⟩ := by
  rw [step_leave hrest, Program.leave, module_alone hf]
  rw [hkind, hsuccs]
  exact enter_of_noPhi hphi hf

theorem step_branch {yes no : BlockRef} (hphi : NoPhi m) (hf : f.func.module = 0)
    (hrest : f.rest = []) (hkind : (m.block f.block).kind = .branch)
    (hcontrols : (m.block f.block).controls = [some v])
    (hsuccs : (m.block f.block).succs = [yes, no]) (hv : Reads m f.regs v x) :
    (Program.mk m []).step limit ⟨w, f :: callers⟩ =
      .running ⟨w, f.atBlock m (if x = 0 then no else yes) :: callers⟩ := by
  rw [step_leave hrest, Program.leave, module_alone hf]
  rw [hkind, hcontrols, hsuccs, hf]
  simp only [List.head?_cons, Option.getD_some, Option.elim_some, hv w]
  rw [enter_of_noPhi hphi hf]
  by_cases hx : x = 0
  · simp [hx]
  · simp [hx]

/-! ## Parameters, calls and returns -/

theorem step_arg (hf : f.func.module = 0) (hrest : f.rest = v :: behind)
    (hop : (m.value v).op = .arg) : (Program.mk m []).step limit ⟨w, f :: callers⟩ =
      .running ⟨w, { f with rest := behind } :: callers⟩ := by
  unfold Program.step
  dsimp only
  rw [hrest, module_alone hf]
  dsimp only
  rw [hop]
  rfl

theorem isDeclaration_of_entry {e : BlockRef} (h : (m.func g).entry = some e) :
    (m.func g).isDeclaration = false := by
  unfold Ssa.Func.isDeclaration
  rw [h]
  rfl

/-- A function with a body is not looked for in other modules. -/
theorem resolve_of_body (hbody : (m.func g).isDeclaration = false) :
    (Program.mk m []).resolve ⟨0, g⟩ = ⟨0, g⟩ := by
  unfold Program.resolve
  rw [show (Program.mk m []).func ⟨0, g⟩ = m.func g from rfl, hbody]
  rfl

theorem step_call {g : FuncRef} {ty : Ssa.Ty} {vs : List ValueRef} {xs : List Word}
    (hf : f.func.module = 0) (hrest : f.rest = v :: behind)
    (hz : (m.value v).Like { op := .call, type := ty, args := vs.map some, aux := .callee g })
    (hlimit : (w.steps : Int) + 1 ≤ limit) (hargs : List.Forall₂ (Reads m f.regs) vs xs)
    (hbody : (m.func g).isDeclaration = false) (hlength : xs.length = (m.func g).sig.params.length) :
    (Program.mk m []).step limit ⟨w, f :: callers⟩ =
      (Program.mk m []).start w.tick (f :: callers) ⟨0, g⟩ xs := by
  have hg : (Program.mk m []).func ⟨0, g⟩ = m.func g := rfl
  have hop : (m.value v).op = .call := hz.op
  have haux : (m.value v).aux = .callee g := hz.aux
  have hvs : (m.value v).args = vs.map some := hz.args
  unfold Program.step
  dsimp only
  rw [hrest, module_alone hf]
  dsimp only
  rw [hop, haux, if_neg (by decide), if_neg (by push_cast; omega)]
  dsimp only
  unfold Program.call
  rw [module_alone hf, hvs, hf, resolve_of_body hbody]
  dsimp only
  rw [readAll_of_reads hargs]
  rw [hg, hbody, if_neg Bool.false_ne_true, if_neg (by simp [hlength])]
  rfl

/-- A frame at its start. -/
def Frame.fresh (m : Ssa.Module) (g : FuncRef) (e : BlockRef) (xs : List Word) : Frame :=
  ⟨⟨0, g⟩, e, (m.block e).values, Program.paramRegs m (m.func g).params xs {}, []⟩

theorem start_of_room {e : BlockRef} (hphi : NoPhi m) (he : (m.func g).entry = some e)
    (hroom : w.depth + 1 ≤ maxDepth) :
    (Program.mk m []).start w callers ⟨0, g⟩ xs =
      .running ⟨w.entered, Frame.fresh m g e xs :: callers⟩ := by
  have hm : (Program.mk m []).code ⟨0, g⟩ = m := rfl
  unfold Program.start
  dsimp only
  rw [hm, he, if_neg (Nat.not_lt.mpr hroom)]
  exact enter_of_noPhi hphi rfl

theorem start_of_full (hfull : w.depth = maxDepth) :
    ∃ fn blk, (Program.mk m []).start w callers ⟨0, g⟩ xs =
      .stopped (.runtime fn blk "stack overflow") ⟨w, callers⟩ := by
  refine ⟨(m.func g).name, m.showBlock ((m.func g).entry.getD 0), ?_⟩
  unfold Program.start
  rw [if_pos (by omega)]
  rfl

/-- A frame that is about to return a word. -/
structure Returns (m : Ssa.Module) (f : Frame) (x : Word) : Prop where
  module : f.func.module = 0
  rest : f.rest = []
  kind : (m.block f.block).kind = .ret
  value : (∃ v, (m.block f.block).controls = [some v] ∧ Reads m f.regs v x) ∨
    ((m.block f.block).controls = [] ∧ x = 0)

theorem Returns.leave (h : Returns m f x) : (Program.mk m []).step limit ⟨w, f :: callers⟩ =
    match callers with
    | [] => .done x (w.without f)
    | c :: rest =>
      match c.rest with
      | call :: vs =>
        .running ⟨w.without f, { c with rest := vs, regs := c.regs.insert call x } :: rest⟩
      | [] => .done x (w.without f) := by
  have hvalue : ((m.block f.block).controls.head?.getD none).elim (0, w) (w.read m 0 f.regs) =
      (x, w) := by
    rcases h.value with ⟨v, hv, hx⟩ | ⟨hnil, rfl⟩
    · rw [hv]
      exact hx w
    · rw [hnil]
      rfl
  rw [step_leave h.rest, Program.leave, module_alone h.module]
  rw [h.kind]
  unfold Program.ret
  rw [h.module, hvalue]
  cases callers with
  | nil => rfl
  | cons c rest => cases c.rest <;> rfl

theorem Returns.step {c : Frame} (h : Returns m f x) (hc : c.rest = v :: behind) :
    (Program.mk m []).step limit ⟨w, f :: c :: callers⟩ =
      .running ⟨w.without f, { c with rest := behind, regs := c.regs.insert v x } :: callers⟩ := by
  rw [h.leave]
  dsimp only
  rw [hc]

end SsaCompiler.Machine
