import SsaCompiler.Proofs.Machine.Extension

/-!
# What a step of the machine can do

A step of a machine that goes on is one of six moves of its innermost frame: it passes over a value
that is already set, sets the register of a value, carries out an operation without a value, starts
a function, goes on to another block, or returns to its caller. `Move` lists them with all that the
step changes, and `Halt` lists the ways to stop. `turn_step` is the only place where the step function
is taken apart. What entering a block and starting a function do to the registers is said in lemmas of
their own.
-/

namespace SsaCompiler.Machine

open List
open Ssa (ValueRef BlockRef FuncRef)

variable {m : Ssa.Module} {regs : Registers} {w' : World} {x : Word} {v : ValueRef}
  {xs : List (ValueRef × Word)}

/-! ## Operations without a value -/

/-- Only the operations without a result leave no value. -/
theorem isVoid_of_exec {module : Nat} {x : Ssa.Value} (h : exec m module regs w x = .none w') :
    x.op.isVoid := by
  unfold exec at h
  split at h
  next =>
    -- an object on the stack: whatever its size, there is an address or a fault
    dsimp only at h
    split at h
    all_goals
      split at h
      · exact Effect.noConfusion h
      · split at h <;> exact Effect.noConfusion h
  next => split at h <;> exact absurd h (by simp)
  next => exact absurd h (by simp)
  next =>
    dsimp only at h
    split at h
    next hop => rw [hop]; rfl
    next => split at h <;> exact absurd h (by simp)
    next hop => rw [hop]; rfl
    next => split at h <;> exact absurd h (by simp)

/-- A runtime function gives a value, ends the program or fails. -/
theorem external_ne (name : String) (args : List Printf.Arg) (w w' : World) (a : Word) :
    external name args w ≠ .slot a w' ∧ external name args w ≠ .none w' := by
  unfold external
  split
  next => split <;> simp
  next => simp
  next => split <;> simp
  next => split <;> simp
  all_goals simp

/-! ## Entering a block -/

/-- The phi values of a block. -/
def phis (m : Ssa.Module) (b : BlockRef) : List ValueRef :=
  (m.block b).values.filter fun v => (m.value v).op == .phi

theorem mem_phis : v ∈ phis m b ↔ v ∈ (m.block b).values ∧ (m.value v).op = .phi := by
  simp [phis]

namespace Program

variable {p : Program} {limit : Int} {w : World} {f : Frame} {callers : List Frame}
  {b : BlockRef} {source : Option BlockRef} {s t : State}

theorem map_fst_phiValues {module : Nat} {arg : Option Nat} {vs : List ValueRef}
    (h : phiValues m module regs arg w vs = .ok (xs, w')) : xs.map (·.1) = vs := by
  induction vs generalizing w xs with
  | nil =>
    simp only [phiValues, Except.ok.injEq, Prod.mk.injEq] at h
    rw [← h.1]
    rfl
  | cons v vs ih =>
    cases arg with
    | none => simp [phiValues] at h
    | some i =>
      simp only [phiValues, bind, Except.bind] at h
      split at h
      next => exact absurd h (by simp)
      next r hr =>
        obtain ⟨rfl, rfl⟩ := h
        rw [map_cons, ih hr]

theorem mem_foldl_insert (h : v ∈ regs ∨ v ∈ xs.map (·.1)) :
    v ∈ xs.foldl (fun (r : Registers) (v, x) => r.insert v x) regs := by
  induction xs generalizing regs with
  | nil =>
    rcases h with h | h
    · exact h
    · exact absurd h (by simp)
  | cons x xs ih =>
    refine ih ?_
    rcases h with h | h
    · exact .inl (Std.HashMap.mem_insert.mpr (.inr h))
    · rcases mem_cons.mp h with rfl | h
      · exact .inl (Std.HashMap.mem_insert.mpr (.inl (by simp)))
      · exact .inr h

/-- The place among the arguments of phi values that belongs to the way into a block. -/
def wayIn (m : Ssa.Module) (source : Option BlockRef) (b : BlockRef) : Option Nat :=
  source.bind fun s => (m.block b).preds.findIdx? (· == s)

/-- A machine that enters a block keeps its registers, sets those of the phi values, and goes on in
front of the first value. -/
theorem enter_running (h : p.enter w f callers source b = .running t) :
    ∃ w' regs, t = ⟨w', { f with block := b, rest := ((p.code f.func).block b).values,
                                 regs := regs } :: callers⟩ ∧
      w.Extends p w' ∧ (∀ v ∈ f.regs, v ∈ regs) ∧ ∀ v ∈ phis (p.code f.func) b, v ∈ regs := by
  unfold enter at h
  dsimp only at h
  split at h
  next hempty =>
    simp only [Progress.running.injEq] at h
    refine ⟨w, f.regs, h.symm, .refl p w, fun v hv => hv, ?_⟩
    intro v hv
    have hnil : phis (p.code f.func) b = [] := isEmpty_iff.mp hempty
    rw [hnil] at hv
    exact absurd hv not_mem_nil
  next =>
    split at h
    next xs w' hxs =>
      simp only [Progress.running.injEq] at h
      refine ⟨w', _, h.symm, phiValues_extends hxs, fun v hv => mem_foldl_insert (.inl hv), ?_⟩
      intro v hv
      refine mem_foldl_insert (.inr ?_)
      rw [map_fst_phiValues hxs]
      exact hv
    next => exact absurd h (by simp)

theorem mem_paramRegs {vs : List ValueRef} {xs : List Word} (hlength : xs.length = vs.length)
    (h : v ∈ regs ∨ v ∈ vs) : v ∈ paramRegs m vs xs regs := by
  induction vs generalizing xs regs with
  | nil =>
    rcases h with h | h
    · exact h
    · exact absurd h not_mem_nil
  | cons u vs ih =>
    cases xs with
    | nil => simp at hlength
    | cons x xs =>
      refine ih (by simpa using hlength) ?_
      rcases h with h | h
      · exact .inl (Std.HashMap.mem_insert.mpr (.inr h))
      · rcases mem_cons.mp h with rfl | h
        · exact .inl (Std.HashMap.mem_insert.mpr (.inl (by simp)))
        · exact .inr h

/-- A function that starts enters its entry block with the parameters set. -/
theorem start_running {g : FuncAt} {args : List Word} (h : p.start w callers g args = .running t) :
    p.enter w.entered ⟨g, (p.func g).entry.getD 0, [],
      paramRegs (p.module g.module) (p.func g).params args {}, []⟩ callers none
      ((p.func g).entry.getD 0) = .running t := by
  unfold start at h
  split at h
  · exact absurd h (by simp)
  · exact h

/-! ## Moves -/

/-- How the value `v` gets its register `x`: by an operation, by an operation that makes an object on
the stack, or by a runtime function. The frame then has the objects `slots`. -/
inductive Computes (p : Program) (w : World) (f : Frame) (v : ValueRef) :
    Word → List Word → World → Prop where
  | value {x : Word} {w' : World} :
    exec (p.code f.func) f.func.module f.regs w.tick ((p.code f.func).value v) =
      .value x w' → Computes p w f v x f.slots w'
  | slot {a : Word} {w' : World} :
    exec (p.code f.func) f.func.module f.regs w.tick ((p.code f.func).value v) =
      .slot a w' → Computes p w f v a (a :: f.slots) w'
  | runtime {callee : FuncRef} {args : List Word} {x : Word} {w₁ w' : World} :
    ((p.code f.func).value v).op = .call →
    ((p.code f.func).value v).aux = .callee callee →
    (p.func (p.resolve ⟨f.func.module, callee⟩)).isDeclaration →
    World.readAll (p.code f.func) f.func.module f.regs w.tick
      ((p.code f.func).value v).args = (args, w₁) →
    external (p.func (p.resolve ⟨f.func.module, callee⟩)).name
      (callArgs (p.code f.func) ((p.code f.func).value v).args args) w₁ =
        .value x w' → Computes p w f v x f.slots w'

/-- The value that the end of a block looks at. -/
def control (p : Program) (f : Frame) : Option ValueRef :=
  ((p.code f.func).block f.block).controls.head?.getD none

/-- The end of a block may lead on to its successor at the place `i`. -/
def Leads (m : Ssa.Module) (b : BlockRef) (i : Nat) : Prop :=
  (m.block b).kind = .plain ∧ i = 0 ∧ (m.block b).succs ≠ [] ∨ (m.block b).kind = .branch ∧ i ≤ 1

theorem Leads.getD_mem {i : Nat} (h : Leads m b i)
    (hbranch : (m.block b).kind = .branch → 1 < (m.block b).succs.length) :
    (m.block b).succs.getD i 0 ∈ (m.block b).succs := by
  have hlt : i < (m.block b).succs.length := by
    rcases h with ⟨-, rfl, hne⟩ | ⟨hkind, hi⟩
    · exact length_pos_iff.mpr hne
    · exact Nat.lt_of_le_of_lt hi (hbranch hkind)
  rw [getD_eq_getElem?_getD, List.getElem?_eq_getElem hlt]
  exact getElem_mem hlt

/-- The ways in which a step of the innermost frame `f` goes on from the world `w`. -/
inductive Move (p : Program) (w : World) (f : Frame) (callers : List Frame) : State → Prop where
  /-- A phi value or a parameter is passed over. -/
  | skip {v : ValueRef} {behind : List ValueRef} : f.rest = v :: behind →
    ((p.code f.func).value v).op = .phi ∨ ((p.code f.func).value v).op = .arg →
    Move p w f callers ⟨w, { f with rest := behind } :: callers⟩
  | assign {v : ValueRef} {behind : List ValueRef} {x : Word} {slots : List Word} {w' : World} :
    f.rest = v :: behind → p.Computes w f v x slots w' →
    Move p w f callers
      ⟨w', { f with rest := behind, regs := f.regs.insert v x, slots := slots } :: callers⟩
  | effect {v : ValueRef} {behind : List ValueRef} {w' : World} : f.rest = v :: behind →
    exec (p.code f.func) f.func.module f.regs w.tick ((p.code f.func).value v) =
      .none w' →
    Move p w f callers ⟨w', { f with rest := behind } :: callers⟩
  /-- A function is started; the call stays in front. -/
  | call {v : ValueRef} {behind : List ValueRef} {callee : FuncRef} {args : List Word}
    {w' : World} {t : State} : f.rest = v :: behind →
    p.start w' (f :: callers) (p.resolve ⟨f.func.module, callee⟩) args = .running t →
    ((p.code f.func).value v).op = .call →
    ((p.code f.func).value v).aux = .callee callee →
    (p.func (p.resolve ⟨f.func.module, callee⟩)).isDeclaration = false → w.tick.Extends p w' →
    Move p w f callers t
  /-- The way leads on to another block. -/
  | goto {w' : World} {i : Nat} {t : State} : f.rest = [] →
    Leads (p.code f.func) f.block i →
    p.enter w' f callers (some f.block)
      (((p.code f.func).block f.block).succs.getD i 0) = .running t →
    w.Extends p w' → Move p w f callers t
  | ret {c : Frame} {rest : List Frame} {call : ValueRef} {vs : List ValueRef} {x : Word}
    {w' : World} : f.rest = [] → callers = c :: rest → c.rest = call :: vs →
    ((p.code f.func).block f.block).kind = .ret →
    readArg (p.code f.func) f.func.module f.regs w (p.control f) = (x, w') →
    Move p w f callers ⟨w'.without f, { c with rest := vs, regs := c.regs.insert call x } :: rest⟩

/-! ## Stops -/

/-- A message that starts differently from the one about phi values. -/
def StartsOther (message : String) : Prop :=
  ∃ c cs, message.toList = c :: cs ∧ c ≠ 'p'

theorem StartsOther.append {message : String} (h : StartsOther message) (more : String) :
    StartsOther (message ++ more) := by
  obtain ⟨c, cs, hc, hne⟩ := h
  exact ⟨c, cs ++ more.toList, by rw [String.toList_append, hc]; rfl, hne⟩

theorem startsOther_opName (op : Ssa.Op) : StartsOther op.name := by
  cases op <;> exact ⟨_, _, rfl, by decide⟩

theorem startsOther_describeValue (m : Ssa.Module) (v : ValueRef) :
    StartsOther (m.describeValue v) := by
  refine StartsOther.append (StartsOther.append (StartsOther.append ?_ _) _) _
  split
  · exact startsOther_opName _
  · have hv : StartsOther "v" := ⟨_, _, rfl, by decide⟩
    exact ((((hv.append _).append _).append _).append _).append _ |>.append _

/-- The ways in which a step of the innermost frame `f` stops the machine. -/
inductive Halt (p : Program) (w : World) (f : Frame) (callers : List Frame) :
    Stop → State → Prop where
  | exit {code : Int} {w' : World} : w.Comes p w' →
    Halt p w f callers (.exit code) ⟨w', f :: callers⟩
  /-- A fault that has nothing to do with phi values. -/
  | fault {func block message : String} {w' : World} : StartsOther message → w.Comes p w' →
    Halt p w f callers (.runtime func block message) ⟨w', f :: callers⟩
  | crash {w' : World} : w.Comes p w' → Halt p w f callers .crash ⟨w', f :: callers⟩
  | call {w' : World} {frame : Frame} {why : Stop} {t : State} :
    p.enter w'.entered frame (f :: callers) none frame.block = .stopped why t → frame.slots = [] →
    w.tick.Extends p w' → Halt p w f callers why t
  | goto {w' : World} {i : Nat} {why : Stop} {t : State} : f.rest = [] →
    Leads (p.code f.func) f.block i →
    p.enter w' f callers (some f.block)
      (((p.code f.func).block f.block).succs.getD i 0) = .stopped why t →
    w.Extends p w' → Halt p w f callers why t

theorem halt_opFault {e : Fault} (h : w.tick.Extends p w') :
    p.Halt w f callers (p.opFault f v e) ⟨w', f :: callers⟩ := by
  unfold opFault Fault.stop
  split
  · exact .crash (.inr h)
  · exact .fault (((startsOther_describeValue _ v).append _).append _) (.inr h)

/-! ## Turns -/

/-- What a step of the innermost frame `f` can do: the machine goes on, or the run has a result, or
the machine stops. -/
inductive Turn (p : Program) (w : World) (f : Frame) (callers : List Frame) : Progress → Prop where
  | move {t : State} : p.Move w f callers t → Turn p w f callers (.running t)
  /-- The result comes from the outermost frame, or from one whose caller has nothing left to do. The
  objects of the frame are released. -/
  | result {x : Word} {w' : World} : (∀ c ∈ callers.head?, c.rest = []) → w.Extends p w' →
    Turn p w f callers (.done x (w'.without f))
  | halt {why : Stop} {t : State} : p.Halt w f callers why t → Turn p w f callers (.stopped why t)

theorem enter_ne_done : p.enter w f callers source b ≠ .done x w' := by
  unfold enter
  dsimp only
  split
  · simp
  · split <;> simp

theorem start_ne_done {g : FuncAt} {args : List Word} : p.start w callers g args ≠ .done x w' := by
  unfold start
  split
  · simp
  · exact enter_ne_done

theorem turn_enter {i : Nat} (hrest : f.rest = [])
    (hsucc : Leads (p.code f.func) f.block i) (hext : w.Extends p w') :
    p.Turn w f callers (p.enter w' f callers (some f.block)
      (((p.code f.func).block f.block).succs.getD i 0)) := by
  cases henter : p.enter w' f callers (some f.block)
    (((p.code f.func).block f.block).succs.getD i 0) with
  | running t => exact .move (.goto hrest hsucc henter hext)
  | done x u => exact absurd henter enter_ne_done
  | stopped why t => exact .halt (.goto hrest hsucc henter hext)

theorem turn_leave (hrest : f.rest = []) : p.Turn w f callers (p.leave w f callers) := by
  unfold leave
  dsimp only
  split
  next hkind =>
    unfold ret
    dsimp only
    split
    next => exact .result (by simp) (readArg_extends ..)
    next c rest =>
      split
      next call vs hcall => exact .move (.ret hrest rfl hcall hkind rfl)
      next hnil => exact .result (by simpa using hnil) (readArg_extends ..)
  next hkind =>
    refine turn_enter hrest (.inr ⟨hkind, ?_⟩) (readArg_extends ..)
    split <;> omega
  next hkind =>
    split
    next => exact .halt (.fault ⟨_, _, rfl, by decide⟩ (.inl (.refl p w)))
    next s ss hsuccs =>
      have hturn : p.Turn w f callers _ :=
        turn_enter (i := 0) hrest (.inl ⟨hkind, rfl, by simp [hsuccs]⟩) (.refl p w)
      rw [hsuccs] at hturn
      exact hturn
  next =>
    have hi : StartsOther "invalid block kind " := ⟨_, _, rfl, by decide⟩
    exact .halt (.fault (hi.append _) (.inl (.refl p w)))

theorem turn_call {callee : FuncRef} {behind : List ValueRef} (hrest : f.rest = v :: behind)
    (hop : ((p.code f.func).value v).op = .call)
    (haux : ((p.code f.func).value v).aux = .callee callee) :
    p.Turn w f callers
      (p.call w.tick f callers v ((p.code f.func).value v) callee behind) := by
  have hread := readAll_extends p f.func.module f.regs w.tick ((p.code f.func).value v).args
  unfold call
  dsimp only
  split
  next hdecl =>
    have halters := external_alters p (p.func (p.resolve ⟨f.func.module, callee⟩)).name
      (callArgs (p.code f.func) ((p.code f.func).value v).args
        (World.readAll (p.code f.func) f.func.module f.regs w.tick
          ((p.code f.func).value v).args).1)
      (World.readAll (p.code f.func) f.func.module f.regs w.tick
        ((p.code f.func).value v).args).2
    split
    next hext => exact .move (.assign hrest (.runtime hop haux hdecl rfl hext))
    next a w' hext => exact absurd hext (external_ne _ _ _ w' a).1
    next w' hext => exact absurd hext (external_ne _ _ _ w' 0).2
    next hext =>
      rw [hext] at halters
      exact .halt (.exit (.inr (hread.trans halters)))
    next hext =>
      rw [hext] at halters
      exact .halt (halt_opFault (hread.trans halters))
  next hdef =>
    split
    · exact .halt (halt_opFault hread)
    -- a function can fail to start for want of stack, or because of its entry block
    · cases hstart : p.start _ (f :: callers) _ _ with
      | running t => exact .move (.call hrest hstart hop haux (by simpa using hdef) hread)
      | done x u => exact absurd hstart start_ne_done
      | stopped why t =>
        unfold start at hstart
        split at hstart
        · cases hstart
          exact .halt (.fault ⟨_, _, rfl, by decide⟩ (.inr hread))
        · exact .halt (.call hstart rfl hread)

/-- A step is one of the moves, gives the result of the run, or stops the machine. -/
theorem turn_step (p : Program) (limit : Int) (w : World) (f : Frame) (callers : List Frame) :
    p.Turn w f callers (p.step limit ⟨w, f :: callers⟩) := by
  unfold step
  dsimp only
  split
  next hrest => exact turn_leave hrest
  next v behind hrest =>
    split
    next hop => exact .move (.skip hrest (by simpa using hop))
    next =>
      split
      next =>
        have hs : StartsOther "step limit " := ⟨_, _, rfl, by decide⟩
        exact .halt (.fault ((hs.append _).append _) (.inr (.refl p _)))
      next =>
        split
        next hop haux => exact turn_call hrest hop haux
        next =>
          have halters := exec_alters p f.func.module f.regs w.tick
            ((p.code f.func).value v)
          split
          next hexec => exact .move (.assign hrest (.value hexec))
          next hexec => exact .move (.assign hrest (.slot hexec))
          next hexec => exact .move (.effect hrest hexec)
          next hexec =>
            rw [World.tick, hexec] at halters
            exact .halt (.exit (.inr halters))
          next hexec =>
            rw [World.tick, hexec] at halters
            exact .halt (halt_opFault halters)

variable {why : Stop}

theorem move_of_step (h : p.step limit ⟨w, f :: callers⟩ = .running t) : p.Move w f callers t := by
  have hturn := turn_step p limit w f callers
  rw [h] at hturn
  cases hturn with
  | move hmove => exact hmove

theorem halt_of_step (h : p.step limit ⟨w, f :: callers⟩ = .stopped why t) :
    p.Halt w f callers why t := by
  have hturn := turn_step p limit w f callers
  rw [h] at hturn
  cases hturn with
  | halt hhalt => exact hhalt

theorem done_of_step (h : p.step limit ⟨w, f :: callers⟩ = .done x w') :
    (∀ c ∈ callers.head?, c.rest = []) ∧ ∃ w₁, w.Extends p w₁ ∧ w' = w₁.without f := by
  have hturn := turn_step p limit w f callers
  rw [h] at hturn
  cases hturn with
  | result hcallers hext => exact ⟨hcallers, _, hext, rfl⟩

/-! ## Stops at phi values -/

/-- A block that cannot be entered stays in front of the stack. -/
theorem enter_stopped (h : p.enter w f callers source b = .stopped why t) :
    t = ⟨w, { f with block := b, rest := ((p.code f.func).block b).values } ::
      callers⟩ := by
  unfold enter at h
  dsimp only at h
  split at h
  · cases h
  · split at h
    · cases h
    · cases h
      rfl

/-- A step that stops the machine takes no frame off the stack. -/
theorem Halt.length_le (h : p.Halt w f callers why t) : callers.length + 1 ≤ t.frames.length := by
  cases h with
  | exit _ => exact Nat.le_refl _
  | fault _ _ => exact Nat.le_refl _
  | crash _ => exact Nat.le_refl _
  | call h _ _ =>
    rw [enter_stopped h]
    simp
  | goto _ _ h _ =>
    rw [enter_stopped h]
    simp

end Program

end SsaCompiler.Machine
