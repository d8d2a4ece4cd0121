import SsaCompiler.Proofs.Simulation.Relation

/-!
# Jumps

At the end of a block the machine executes the slots that lowering has put there later, and goes on in
another block. A block that is entered was empty when lowering went there, so the correspondence holds
at its start.
-/

namespace SsaCompiler.Simulation

open Ssa (ValueRef BlockRef Module)
open Core (Store Locals)
open Lowering (Stands Empty Extends Ended)
open Machine

variable {C : Context} {A : Act} {b c d : BlockRef} {s t u : LoweringState} {n k : Nat}
  {σ : Store} {w : World} {fr : Frame} {μ : Memory} {regs : Registers} {kind : Ssa.BlockKind}
  {controls : List (Option ValueRef)} {succs : List BlockRef}

/-! ## Ends of blocks -/

/-- The machine has executed all values of a block. -/
structure Finished (C : Context) (A : Act) (b : BlockRef) (s : LoweringState) (n : Nat) (σ : Store)
    (w : World) (fr : Frame) : Prop where
  func : fr.func = ⟨0, A.func⟩
  block : fr.block = b
  rest : fr.rest = []
  steps : w.steps + n + σ.budget ≤ C.total
  space : w.memory.segments.size + A.held + σ.room < 2 ^ 32
  sits : Sits C A (C.module.block A.entry).values w fr
  vars : Vars C A s σ.locals w.memory fr.regs

/-- A block ends in the finished module as lowering ended it. -/
structure EndsAs (C : Context) (b : BlockRef) (kind : Ssa.BlockKind)
    (controls : List (Option ValueRef)) (succs : List BlockRef) : Prop where
  kind : (C.module.block b).kind = kind
  controls : (C.module.block b).controls = controls
  succs : (C.module.block b).succs = succs

theorem endsAs_of_ended (g : Ended A.func A.entry b s kind controls succs t)
    (hg : C.Takes t) : EndsAs C b kind controls succs := by
  obtain ⟨hkind, hcontrols, hsuccs⟩ := hg.stop b g.adds.stands.bound g.closed
  exact ⟨hkind.trans g.ends.here.kind, hcontrols.trans g.ends.here.controls,
    hsuccs.trans g.ends.here.succs⟩

/-- Behind an end there are only slots, and only in the entry block. -/
theorem Rel.trailing (h : Rel C A b s n σ w fr) (g : Ended A.func A.entry b s kind controls succs t)
    (hg : C.Takes t) :
    ∃ more, (C.module.block b).values = (s.module.block b).values ++ more ∧ fr.rest = more ∧
      (∀ v ∈ more, C.module.isIntSlot v ∧ s.module.values.size ≤ v) ∧
      (b ≠ A.entry → more = []) := by
  have ht := g.adds.stands
  obtain ⟨more, hmore, hnew, hslots⟩ := hg.code b ht.bound
  rw [g.ends.here.values] at hmore
  refine ⟨more, hmore, ?_, fun v hv => ⟨(hslots g.closed v hv).1, ?_⟩, fun hb => ?_⟩
  · rw [h.rest, hmore, List.drop_left]
  · exact g.ends.size ▸ hnew v hv
  · refine List.eq_nil_iff_forall_not_mem.mpr fun v hv => hb ?_
    have hentry := (hslots g.closed v hv).2
    rw [hg.home b ht.bound, ht.home, (hg.func A.func ht.known).entry, ht.entry] at hentry
    exact (Option.some.inj hentry).symm

/-- The machine comes to the end of a block. What cells hold does not change. -/
theorem Rel.finish (callers : List Frame) (h : Rel C A b s n σ w fr)
    (g : Ended A.func A.entry b s kind controls succs t) (hg : C.Takes t) :
    ∃ w' fr', Moves C s A.base callers w fr w' fr' ∧ Finished C A b s n σ w' fr' ∧
      ∀ k bits, w'.memory.content k bits = w.memory.content k bits := by
  obtain ⟨more, hmore, hrest, hslots, hnil⟩ := h.trailing g hg
  have hsteps := h.steps
  have hspace := h.space
  have hpay : more.length ≤ pending C A b s ∧
      (C.module.block A.entry).values = ready C A b s ++ more := by
    by_cases hb : b = A.entry
    · subst hb
      have hold : (s.module.block A.entry).values.countP C.module.isIntSlot =
          s.module.slotCount A.entry := List.countP_congr fun v hv => by
        rw [Module.isIntSlot_congr (h.grows.value v (h.stands.tidy.inside _ h.stands.bound v hv))]
      have hall : more.countP C.module.isIntSlot = more.length :=
        List.countP_eq_length.mpr fun v hv => (hslots v hv).1
      refine ⟨?_, by rw [ready_entry, hmore]⟩
      unfold pending Module.slotCount
      rw [if_pos rfl, hmore, List.countP_append, hold, hall]
      unfold Module.slotCount
      omega
    · rw [hnil hb, ready_of_ne hb, List.append_nil]
      exact ⟨Nat.zero_le _, rfl⟩
  obtain ⟨w', fr', k⟩ := h.sits.slots callers h.module_eq hrest (fun v hv => (hslots v hv).1)
    (by omega) (by omega)
  have hregs : ∀ v < s.module.values.size, fr'.regs.getD v 0 = fr.regs.getD v 0 := fun v hv =>
    k.regs v fun hmem => Nat.lt_irrefl _ (Nat.lt_of_lt_of_le hv (hslots v hmem).2)
  refine ⟨w', fr', ⟨k.reaches, hregs, k.keeps⟩, ⟨k.func.trans h.func, k.block.trans h.block, k.rest,
    ?_, ?_, ?_, h.vars_extends (.refl s) hregs fun j _ bits => k.content j bits⟩, k.content⟩
  · rw [k.steps]
    omega
  · rw [k.size]
    omega
  · rw [hpay.2]
    exact k.sits

theorem Vars.extends {l : Locals} (hv : Vars C A s l μ regs) (h : Extends s t)
    (he : A.entry < s.module.blocks.size) : Vars C A t l μ regs := by
  intro id a ha
  obtain ⟨st, hst, hmem, hrest⟩ := hv id a ha
  exact ⟨st, h.storage id st hst, mem_code h.grows he hmem, hrest⟩

theorem Finished.enter (h : Finished C A b s n σ w fr) (hempty : Empty A.func A.entry d u)
    (hstands : Stands A.func A.entry c u) (hfs : u.functions = C.functions)
    (hg : C.Takes u) (hvars : Vars C A u σ.locals w.memory fr.regs) :
    Rel C A d (u.standingAt d) n σ w (fr.atBlock C.module d) := by
  refine ⟨hempty.stands hstands, hempty.opened, hfs, hg, h.func, rfl, ?_, ?_, ?_, ?_, hvars⟩
  · show (C.module.block d).values = (C.module.block d).values.drop (u.module.block d).values.length
    rw [hempty.values]
    rfl
  · unfold pending
    rw [if_neg hempty.ne]
    exact h.steps
  · unfold pending
    rw [if_neg hempty.ne]
    exact h.space
  · rw [ready_of_ne hempty.ne]
    exact ⟨h.sits.room, h.sits.depth, h.sits.cells, h.sits.objects⟩

theorem Rel.jump (callers : List Frame) (h : Rel C A b s n σ w fr)
    (g : Ended A.func A.entry b s .plain [] [d] t) (hgt : C.Takes t)
    (hempty : Empty A.func A.entry d u) (hstands : Stands A.func A.entry c u)
    (hfs : u.functions = C.functions) (hg : C.Takes u)
    (hvars : ∀ μ regs, Vars C A s σ.locals μ regs → Vars C A u σ.locals μ regs) :
    ∃ w' fr', Moves C s A.base callers w fr w' fr' ∧ Rel C A d (u.standingAt d) n σ w' fr' ∧
      ∀ k bits, w'.memory.content k bits = w.memory.content k bits := by
  obtain ⟨w', fr', k, hfin, hcontent⟩ := h.finish callers g hgt
  have hends := endsAs_of_ended g hgt
  have hmodule : fr'.func.module = 0 := by rw [hfin.func]
  have hstep : C.program.step C.limit ⟨w', fr' :: callers⟩ = _ :=
    step_jump C.noPhi hmodule hfin.rest (hfin.block ▸ hends.kind) (hfin.block ▸ hends.succs)
  exact ⟨w', fr'.atBlock C.module d, ⟨k.reaches.tail ⟨hstep, rfl⟩, k.kept.regs, k.kept.memory⟩,
    hfin.enter hempty hstands hfs hg (hvars _ _ hfin.vars), hcontent⟩

theorem Rel.branch {z : ValueRef} {a : Int} {yes no : BlockRef} (callers : List Frame)
    (h : Rel C A b s n σ w fr) (g : Ended A.func A.entry b s .branch [some z] [yes, no] t)
    (hg : C.Takes t) (hz : Denotes C fr.regs z .bool a)
    (hlt : z < s.module.values.size) (hd : d = if a = 0 then no else yes)
    (hempty : Empty A.func A.entry d t) :
    ∃ w' fr', Moves C s A.base callers w fr w' fr' ∧ Rel C A d (t.standingAt d) n σ w' fr' ∧
      ∀ k bits, w'.memory.content k bits = w.memory.content k bits := by
  obtain ⟨w', fr', k, hfin, hcontent⟩ := h.finish callers g hg
  have hends := endsAs_of_ended g hg
  have hmodule : fr'.func.module = 0 := by rw [hfin.func]
  have hstep : C.program.step C.limit ⟨w', fr' :: callers⟩ = _ :=
    step_branch C.noPhi hmodule hfin.rest (hfin.block ▸ hends.kind) (hfin.block ▸ hends.controls)
      (hfin.block ▸ hends.succs) (k.kept.reads hz.reads hlt)
  have htarget : (if Word.ofInt a = 0 then no else yes) = d := by
    rw [hd]
    exact if_congr (Word.ofInt_eq_zero rfl hz.holds) rfl rfl
  rw [htarget] at hstep
  have hvars := hfin.vars.extends (.of_adds g.adds) h.stands.entryBound
  exact ⟨w', fr'.atBlock C.module d, ⟨k.reaches.tail ⟨hstep, rfl⟩, k.kept.regs, k.kept.memory⟩,
    hfin.enter hempty g.adds.stands (g.adds.functions.trans h.functions) hg hvars, hcontent⟩

end SsaCompiler.Simulation
