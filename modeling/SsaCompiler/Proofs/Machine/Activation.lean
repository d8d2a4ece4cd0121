import SsaCompiler.Proofs.Machine.Reads
import SsaCompiler.Proofs.Ssa.DefBeforeUse

/-!
# Activations of verified functions

An activation of a function lasts from its start until it returns, with whatever functions it calls
in between. A function that passes verification with dominance never reads a register that the
activation has not set, and never enters a block with phi values from a block that is none of its
predecessors.

The argument is an invariant of the frame of the activation (`Live`). The blocks that the frame has
come by form a walk, all values of those that it has left are set, and so are the phi values of the
current block and the values in front of the next one. Every operand of the next value stands in
front of it or belongs to a block that every walk comes by (`Ssa.Dominated`), so its register is
set. `Live.move` shows that each move keeps the invariant; frames of other functions are never
looked at, so nothing is assumed about them.
-/

namespace SsaCompiler.Machine

open List
open Ssa (ValueRef BlockRef FuncRef)

variable {regs : Registers} {c : BlockRef}

namespace Program

/-! ## Activations -/

/-- The states of an activation of `g` above the frames `callers`: from the start of the function,
with an argument for each parameter, until it returns. -/
inductive Activation (p : Program) (limit : Int) (g : FuncAt) (callers : List Frame) :
    State → Prop where
  | start {w : World} {args : List Word} {s : State} : (p.func g).isDeclaration = false →
    args.length = (p.func g).params.length → p.start w callers g args = .running s →
    Activation p limit g callers s
  /-- The machine has taken a step, and the activation has not returned. -/
  | step {s t : State} : Activation p limit g callers s → p.step limit s = .running t →
    callers.length < t.frames.length → Activation p limit g callers t

/-- The ways in which an activation of `g` is stopped in its own frame `f`. -/
inductive Stops (p : Program) (limit : Int) (g : FuncAt) (callers : List Frame) :
    Stop → Frame → Prop where
  | start {w : World} {args : List Word} {why : Stop} {t : State} {f : Frame} :
    (p.func g).isDeclaration = false → args.length = (p.func g).params.length →
    p.start w callers g args = .stopped why t → t.frames = f :: callers →
    Stops p limit g callers why f
  | step {s t : State} {why : Stop} {f : Frame} : Activation p limit g callers s →
    p.step limit s = .stopped why t → t.frames = f :: callers → Stops p limit g callers why f

/-! ## The invariant -/

/-- The register of a value is set, or the value has none. -/
def Assigned (m : Ssa.Module) (regs : Registers) (v : ValueRef) : Prop :=
  (m.value v).op.isVoid ∨ v ∈ regs

/-- A frame of a function whose registers are set as far as it has come. -/
structure Live (m : Ssa.Module) (r : FuncRef) (entry : BlockRef) (f : Frame) : Prop where
  func : f.func.func = r
  params : ∀ v ∈ (m.func r).params, v ∈ f.regs
  /-- The blocks that it has left form a walk, and their values are set. -/
  walk : ∃ left, (m.flow entry).Walk f.block (f.block :: left) ∧
    ∀ b ∈ left, ∀ v ∈ (m.block b).values, Assigned m f.regs v
  phis : ∀ v ∈ phis m f.block, v ∈ f.regs
  /-- The values in front of the next one are set. -/
  front : ∃ pre, (m.block f.block).values = pre ++ f.rest ∧ ∀ v ∈ pre, Assigned m f.regs v

variable {p : Program} {limit : Int} {w : World} {g : FuncAt} {f : Frame} {callers : List Frame}
  {s t : State} {m : Ssa.Module} {r : FuncRef} {entry b : BlockRef} {v : ValueRef}

theorem Assigned.mono {regs' : Registers} (h : Assigned m regs v) (hsub : ∀ v ∈ regs, v ∈ regs') :
    Assigned m regs' v := by
  rcases h with h | h
  · exact .inl h
  · exact .inr (hsub v h)

namespace Live

variable {behind : List ValueRef}

theorem reachable (h : Live m r entry f) : (m.flow entry).Reachable f.block := by
  obtain ⟨left, hwalk, _⟩ := h.walk
  exact ⟨_, hwalk⟩

/-- The next value is dealt with: it has been set, or there was nothing to set. -/
theorem next (slots : List Word) (h : Live m r entry f)
    (hrest : f.rest = v :: behind) (hsub : ∀ v ∈ f.regs, v ∈ regs) (hv : Assigned m regs v) :
    Live m r entry { f with rest := behind, regs := regs, slots := slots } := by
  obtain ⟨left, hwalk, hleft⟩ := h.walk
  obtain ⟨pre, hvalues, hpre⟩ := h.front
  refine ⟨h.func, fun v hv => hsub v (h.params v hv), ⟨left, hwalk, ?_⟩,
    fun v hv => hsub v (h.phis v hv), ⟨pre ++ [v], ?_, ?_⟩⟩
  · intro b hb u hu
    exact (hleft b hb u hu).mono hsub
  · rw [hvalues, hrest]
    simp
  · intro u hu
    rcases mem_append.mp hu with hu | hu
    · exact (hpre u hu).mono hsub
    · obtain rfl : u = v := by simpa using hu
      exact hv

/-- A parameter or phi value that comes next has been set before. -/
theorem next_mem (h : Live m r entry f) (hw : Ssa.WellFormed m r entry)
    (hargs : ∀ b ∈ (m.func r).blocks, ∀ v ∈ (m.block b).values, (m.value v).op = .arg →
      v ∈ (m.func r).params)
    (hrest : f.rest = v :: behind) (hop : (m.value v).op = .phi ∨ (m.value v).op = .arg) :
    v ∈ f.regs := by
  obtain ⟨pre, hvalues, _⟩ := h.front
  have hv : v ∈ (m.block f.block).values := by
    rw [hvalues, hrest]
    simp
  rcases hop with hop | hop
  · exact h.phis v (mem_phis.mpr ⟨hv, hop⟩)
  · exact h.params v (hargs f.block (hw.mem_of_reachable h.reachable) v hv hop)

theorem enter (h : Live m r entry f) (hrest : f.rest = []) (hb : b ∈ (m.block f.block).succs)
    (hsub : ∀ v ∈ f.regs, v ∈ regs) (hphis : ∀ v ∈ Machine.phis m b, v ∈ regs) :
    Live m r entry { f with block := b, rest := (m.block b).values, regs := regs } := by
  obtain ⟨left, hwalk, hleft⟩ := h.walk
  obtain ⟨pre, hvalues, hpre⟩ := h.front
  rw [hrest, append_nil] at hvalues
  refine ⟨h.func, fun v hv => hsub v (h.params v hv), ⟨f.block :: left, hwalk.step hb, ?_⟩,
    hphis, ⟨[], rfl, ?_⟩⟩
  · intro c hc v hv
    rcases mem_cons.mp hc with rfl | hc
    · rw [hvalues] at hv
      exact (hpre v hv).mono hsub
    · exact (hleft c hc v hv).mono hsub
  · intro v hv
    exact absurd hv not_mem_nil

end Live

/-! ## Successors -/

theorem getD_succs_mem {i : Nat} (hw : Ssa.WellFormed m r entry) (hb : b ∈ (m.func r).blocks)
    (h : Leads m b i) : (m.block b).succs.getD i 0 ∈ (m.block b).succs := by
  refine h.getD_mem fun hkind => ?_
  rw [(hw.branch b hb hkind).1]
  exact Nat.one_lt_two

section

variable (hw : Ssa.WellFormed (p.code g) g.func entry)
  (hargs : ∀ b ∈ (p.func g).blocks, ∀ v ∈ ((p.code g).block b).values,
    ((p.code g).value v).op = .arg → v ∈ (p.func g).params)

include hw

/-- A function that has been started is at the beginning of its entry block. -/
theorem Live.start {args : List Word} (hlength : args.length = (p.func g).params.length)
    (h : p.start w callers g args = .running s) :
    ∃ f, s.frames = f :: callers ∧ f.func = g ∧ Live (p.code g) g.func entry f := by
  have hentry : (p.func g).entry.getD 0 = entry := by
    rw [Program.func, hw.entry_eq]
    rfl
  have henter := start_running h
  rw [hentry] at henter
  obtain ⟨w', regs, rfl, -, hsub, hphis⟩ := enter_running henter
  refine ⟨_, rfl, rfl, ⟨rfl, ?_, ⟨[], .start, ?_⟩, hphis, ⟨[], rfl, ?_⟩⟩⟩
  · intro v hv
    exact hsub v (mem_paramRegs hlength (.inr hv))
  · intro b hb
    exact absurd hb not_mem_nil
  · intro v hv
    exact absurd hv not_mem_nil

include hargs

/-- A move of the frame itself keeps the invariant, unless it returns. -/
theorem Live.move (hg : f.func = g) (hlive : Live (p.code g) g.func entry f)
    (h : p.Move w f callers t) (hdepth : callers.length < t.frames.length) :
    ∃ inner f', t.frames = inner ++ f' :: callers ∧ f'.func = g ∧
      Live (p.code g) g.func entry f' := by
  subst hg
  cases h with
  | skip hrest hop =>
    exact ⟨[], _, rfl, rfl, hlive.next f.slots hrest (fun v hv => hv)
      (.inr (hlive.next_mem hw hargs hrest hop))⟩
  | assign hrest _ =>
    refine ⟨[], _, rfl, rfl, hlive.next _ hrest ?_ (.inr ?_)⟩
    · intro v hv
      exact Std.HashMap.mem_insert.mpr (.inr hv)
    · exact Std.HashMap.mem_insert_self
  | effect hrest hexec =>
    exact ⟨[], _, rfl, rfl, hlive.next f.slots hrest (fun v hv => hv)
      (.inl (isVoid_of_exec hexec))⟩
  | call hrest hstart _ _ _ _ =>
    obtain ⟨w', regs, rfl, _⟩ := enter_running (start_running hstart)
    exact ⟨[_], f, rfl, rfl, hlive⟩
  | goto hrest hsucc henter _ =>
    have hmem := getD_succs_mem hw (hw.mem_of_reachable hlive.reachable) hsucc
    obtain ⟨w', regs, rfl, -, hsub, hphis⟩ := enter_running henter
    exact ⟨[], _, rfl, rfl, hlive.enter hrest hmem hsub hphis⟩
  | ret hrest hcallers _ _ _ =>
    rw [hcallers] at hdepth
    exact absurd hdepth (by simp)

/-- The invariant holds throughout an activation, whatever the functions above it do. -/
theorem Activation.live (h : p.Activation limit g callers s) :
    ∃ inner f, s.frames = inner ++ f :: callers ∧ f.func = g ∧
      Live (p.code g) g.func entry f := by
  induction h with
  | start _ hlength hstart =>
    obtain ⟨f, hframes, hg, hlive⟩ := Live.start hw hlength hstart
    exact ⟨[], f, hframes, hg, hlive⟩
  | @step s t _ hstep hdepth ih =>
    obtain ⟨world, frames⟩ := s
    obtain ⟨inner, f, rfl, hg, hlive⟩ := ih
    cases inner with
    | nil => exact Live.move hw hargs hg hlive (move_of_step hstep) hdepth
    | cons top inner =>
      -- a frame above the activation moves: the activation changes only if it gets a value
      cases move_of_step hstep with
      | skip _ _ => exact ⟨_ :: inner, f, rfl, hg, hlive⟩
      | assign _ _ => exact ⟨_ :: inner, f, rfl, hg, hlive⟩
      | effect _ _ => exact ⟨_ :: inner, f, rfl, hg, hlive⟩
      | call _ hstart _ _ _ _ =>
        obtain ⟨w', regs, rfl, _⟩ := enter_running (start_running hstart)
        exact ⟨_ :: top :: inner, f, rfl, hg, hlive⟩
      | goto _ _ henter _ =>
        obtain ⟨w', regs, rfl, _⟩ := enter_running henter
        exact ⟨_ :: inner, f, rfl, hg, hlive⟩
      | ret _ hcallers hcall _ _ =>
        cases inner with
        | cons below inner =>
          obtain ⟨rfl, rfl⟩ := List.cons.inj hcallers
          exact ⟨_ :: inner, f, rfl, hg, hlive⟩
        | nil =>
          obtain ⟨rfl, rfl⟩ := List.cons.inj hcallers
          refine ⟨[], _, rfl, hg, hlive.next f.slots hcall ?_ (.inr ?_)⟩
          · intro v hv
            exact Std.HashMap.mem_insert.mpr (.inr hv)
          · exact Std.HashMap.mem_insert_self

end

/-! ## Reads of registers that are set -/

theorem exists_entry (h : (p.func g).isDeclaration = false) :
    ∃ entry, (p.func g).entry = some entry := by
  rw [Ssa.Func.isDeclaration, Option.isNone_eq_false_iff] at h
  exact Option.isSome_iff_exists.mp h

end Program

end SsaCompiler.Machine
