import SsaCompiler.Machine.Exec
import SsaCompiler.Target

/-!
# Running functions

A machine takes small steps: it computes the next value of the innermost frame, or goes on to the
next block, or returns. A call of a function with a body puts a new frame on the stack, and a return
takes one off and gives its value to the call. When a run ends, in whatever way, the objects of all
frames that are still active are released.

Every value other than a phi value or a parameter counts as one step, and the number of steps is
limited.
-/

namespace SsaCompiler.Machine

open Ssa (ValueRef BlockRef FuncRef)

/-- How many functions can be active at once. -/
def maxDepth : Nat := 10000

inductive Progress where
  | running (s : State)
  | done (result : Word) (w : World)
  | stopped (why : Stop) (s : State)

def releaseFrames (m : Memory) (frames : List Frame) : Memory :=
  frames.foldl (fun m f => f.slots.foldl Memory.release m) m

/-- The world when all functions that are still active have been left. -/
def State.unwind (s : State) : World :=
  { s.world with memory := releaseFrames s.world.memory s.frames,
                 depth := s.world.depth - s.frames.length }

namespace Program

variable (p : Program)

def fault (f : Frame) (message : String) : Stop :=
  .runtime (p.func f.func).name ((p.code f.func).showBlock f.block) message

def opFault (f : Frame) (v : ValueRef) (e : Fault) : Stop :=
  e.stop fun message => p.fault f ((p.code f.func).describeValue v ++ ": " ++ message)

/-! ## Blocks -/

/-- The values that phi values get on the way from one block to another; the first phi value without
one if there is any. -/
def phiValues (m : Ssa.Module) (module : Nat) (regs : Registers) (arg : Option Nat) :
    World → List ValueRef → Except ValueRef (List (ValueRef × Word) × World)
  | w, [] => .ok ([], w)
  | w, v :: vs =>
    match arg with
    | none => .error v
    | some i => do
      let (x, w) := ((m.value v).args.getD i none).elim (0, w) (w.read m module regs)
      let (rest, w) ← phiValues m module regs arg w vs
      .ok ((v, x) :: rest, w)

/-- Enters a block from another one, or from outside. All phi values are set at once. -/
def enter (w : World) (f : Frame) (callers : List Frame) (source : Option BlockRef)
    (b : BlockRef) : Progress :=
  let m := p.code f.func
  let blk := m.block b
  let f := { f with block := b, rest := blk.values }
  let phis := blk.values.filter fun v => (m.value v).op == .phi
  if phis.isEmpty then .running ⟨w, f :: callers⟩
  else
    let arg := source.bind fun s => blk.preds.findIdx? (· == s)
    match phiValues m f.func.module f.regs arg w phis with
    | .ok (values, w) =>
      let regs := values.foldl (fun (r : Registers) (v, x) => r.insert v x) f.regs
      .running ⟨w, { f with regs := regs } :: callers⟩
    | .error v =>
      .stopped (p.fault f ("phi " ++ m.showValue v ++ " entered from non-predecessor"))
        ⟨w, f :: callers⟩

/-! ## Calls -/

def paramRegs (m : Ssa.Module) : List ValueRef → List Word → Registers → Registers
  | v :: vs, x :: xs, regs =>
    let t := m.typeOf v
    paramRegs m vs xs (regs.insert v (if t.isInt then x.wrap t.bits else x))
  | _, _, regs => regs

def start (w : World) (callers : List Frame) (f : FuncAt) (args : List Word) :
    Progress :=
  let m := p.code f
  let fn := m.func f.func
  let entry := fn.entry.getD 0
  if maxDepth < w.depth + 1 then
    .stopped (.runtime fn.name (m.showBlock entry) "stack overflow") ⟨w, callers⟩
  else
    let frame : Frame := ⟨f, entry, [], paramRegs m fn.params args {}, []⟩
    p.enter { w with depth := w.depth + 1 } frame callers none entry

def ret (m : Ssa.Module) (w : World) (f : Frame) (callers : List Frame) (v : Option ValueRef) :
    Progress :=
  let (x, w) := v.elim (0, w) (w.read m f.func.module f.regs)
  let w := { w with memory := f.slots.foldl Memory.release w.memory, depth := w.depth - 1 }
  match callers with
  | [] => .done x w
  | c :: rest =>
    match c.rest with
    | call :: vs => .running ⟨w, { c with rest := vs, regs := c.regs.insert call x } :: rest⟩
    | [] => .done x w

/-! ## Steps -/

/-- Ends a block whose values have all been computed. -/
def leave (w : World) (f : Frame) (callers : List Frame) : Progress :=
  let m := p.code f.func
  let blk := m.block f.block
  match blk.kind with
  | .ret => ret m w f callers (blk.controls.head?.getD none)
  | .branch =>
    let (c, w) := (blk.controls.head?.getD none).elim (0, w) (w.read m f.func.module f.regs)
    p.enter w f callers (some f.block) (blk.succs.getD (if c != 0 then 0 else 1) 0)
  | .plain =>
    match blk.succs with
    | [] => .stopped (p.fault f "fell off the end of the function") ⟨w, f :: callers⟩
    | s :: _ => p.enter w f callers (some f.block) s
  | kind => .stopped (p.fault f ("invalid block kind " ++ kind.name)) ⟨w, f :: callers⟩

def callArgs (m : Ssa.Module) (args : List (Option ValueRef)) (values : List Word) :
    List Printf.Arg :=
  args.zipWith (fun a x => ⟨x, a.map m.typeOf⟩) values

def call (w : World) (f : Frame) (callers : List Frame) (v : ValueRef)
    (x : Ssa.Value) (callee : FuncRef) (behind : List ValueRef) : Progress :=
  let m := p.code f.func
  let (args, w) := World.readAll m f.func.module f.regs w x.args
  let target := p.resolve ⟨f.func.module, callee⟩
  let fn := p.func target
  if fn.isDeclaration then
    match external fn.name (callArgs m x.args args) w with
    | .value r w =>
      .running ⟨w, { f with rest := behind, regs := f.regs.insert v r } :: callers⟩
    | .slot _ w | .none w => .running ⟨w, { f with rest := behind } :: callers⟩
    | .exit code w => .stopped (.exit code) ⟨w, f :: callers⟩
    | .fault e w => .stopped (p.opFault f v e) ⟨w, f :: callers⟩
  else if args.length != fn.sig.params.length then
    .stopped (p.opFault f v (.arity fn.name args.length fn.sig.params.length)) ⟨w, f :: callers⟩
  else p.start w (f :: callers) target args

def step (p : Program) (limit : Int) (s : State) : Progress :=
  match s.frames with
  | [] => .done 0 s.world
  | f :: callers =>
    match f.rest with
    | [] => p.leave s.world f callers
    | v :: behind =>
      let m := p.code f.func
      let x := m.value v
      if x.op == .phi || x.op == .arg then
        .running ⟨s.world, { f with rest := behind } :: callers⟩
      else
        let w := { s.world with steps := s.world.steps + 1 }
        if limit < w.steps then
          .stopped (p.fault f ("step limit " ++ toString limit ++ " exceeded")) ⟨w, f :: callers⟩
        else
          match x.op, x.aux with
          | .call, .callee c => p.call w f callers v x c behind
          | _, _ =>
            match exec m f.func.module f.regs w x with
            | .value r w =>
              .running ⟨w, { f with rest := behind, regs := f.regs.insert v r } :: callers⟩
            | .slot a w =>
              .running ⟨w, { f with rest := behind, regs := f.regs.insert v a,
                                    slots := a :: f.slots } :: callers⟩
            | .none w => .running ⟨w, { f with rest := behind } :: callers⟩
            | .exit code w => .stopped (.exit code) ⟨w, f :: callers⟩
            | .fault e w => .stopped (p.opFault f v e) ⟨w, f :: callers⟩

inductive Outcome where
  | returned (x : Word)
  | stopped (why : Stop)
  | unfinished
  deriving Inhabited

instance : Nonempty (Outcome × World) := ⟨default⟩

/-- One turn of a run: the state in which it goes on, or its end. -/
def advance (limit : Int) (s : State) : State ⊕ (Outcome × World) :=
  match p.step limit s with
  | .running s => .inl s
  | .done x w => .inr (.returned x, w)
  | .stopped why s => .inr (.stopped why, s.unwind)

/-- Runs a machine to its end. Only values count as steps, so a program that goes in circles without
computing any value does not end. -/
def run (p : Program) (limit : Int) (s : State) : Outcome × World :=
  Id.run (repeatM (fun s => pure (p.advance limit s)) s)

theorem run_eq (limit : Int) (s : State) :
    p.run limit s =
      match p.advance limit s with
      | .inl t => p.run limit t
      | .inr ended => ended := by
  conv => lhs; unfold run
  rw [repeatM_eq_of_monadTail]
  cases hs : p.advance limit s <;> simp only [repeatM.body, run, Id.run, hs, pure, bind]

def callFunction (limit : Int) (name : String) (args : List Word) (w : World) :
    Outcome × World :=
  match p.main.find? name with
  | none => (.stopped (.plain ("no function " ++ name)), w)
  | some f =>
    let target := p.resolve ⟨0, f⟩
    let fn := p.func target
    if fn.isDeclaration then
      match external fn.name (args.map fun x => ⟨x, none⟩) w with
      | .value r w => (.returned r, w)
      | .slot _ w | .none w => (.returned 0, w)
      | .exit code w => (.stopped (.exit code), w)
      | .fault e w => (.stopped (e.stop .plain), w)
    else if args.length != fn.sig.params.length then
      (.stopped (.plain (Fault.arity fn.name args.length fn.sig.params.length).message), w)
    else
      match p.start w [] target args with
      | .running s => p.run limit s
      | .done x w => (.returned x, w)
      | .stopped why s => (.stopped why, s.unwind)

def noEntryPoint : Stop :=
  .plain ("module " ++ p.main.name ++ " has no " ++ Target.entryPoint ++ " function")

/-- Runs a program from its entry point. The result is the exit status. -/
def execute (limit : Int) (w : World) : Except Stop Int × World :=
  match p.main.find? Target.entryPoint with
  | none => (.error p.noEntryPoint, w)
  | some f =>
    let fn := p.main.func f
    if fn.isDeclaration then
      (.error p.noEntryPoint, w)
    else if !fn.sig.params.isEmpty then
      (.error (.plain (Target.entryPoint ++ " must not take parameters")), w)
    else
      match p.callFunction limit Target.entryPoint [] w with
      | (.returned x, w) => (.ok (if fn.sig.result.isVoid then 0 else (x.wrap 32).signed), w)
      | (.stopped (.exit code), w) => (.ok code, w)
      | (.stopped why, w) => (.error why, w)
      | (.unfinished, w) => (.error (.plain "the program does not end"), w)

end Program

end SsaCompiler.Machine
