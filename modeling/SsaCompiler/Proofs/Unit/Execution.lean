import SsaCompiler.Proofs.Simulation.Program
import SsaCompiler.Proofs.Unit.EndedMethods

/-!
# Plain programs run as they say

The module of a plain program, run by the machine, does what the evaluator says about the resolved
program, which is the written one (`IsPlain.resolves`). If the evaluation of the main method has a
result, the run ends with it as exit status and has written nothing. If the evaluation has none
because of a division by zero, or because too many methods are active, the run stops for the same
reason.

The budget of an evaluation bounds the number of steps of the machine: an evaluation that gets by with
some budget is followed by every machine whose limit of steps is not below that budget.
-/

namespace SsaCompiler

open List
open Core (Setting Trap)
open Ssa (FuncRef BlockRef Module)
open Machine

variable {budget : Nat}

/-! ## Running the main function -/

namespace Machine

variable {m : Ssa.Module} {limit : Int} {g : FuncRef} {e : BlockRef} {w w' : World} {x : Word}
  {why : Stop} (hphi : NoPhi m) (hfind : m.find? Target.entryPoint = some g)
  (he : (m.func g).entry = some e) (hparams : (m.func g).sig.params = [])
  (hroom : w.depth + 1 ≤ maxDepth)

include hphi hfind he hparams hroom

theorem callFunction_main : (Program.mk m []).callFunction limit Target.entryPoint [] w =
    (Program.mk m []).run limit ⟨w.entered, [Frame.fresh m g e []]⟩ := by
  have hbody := isDeclaration_of_entry he
  have hfunc : (Program.mk m []).func ⟨0, g⟩ = m.func g := rfl
  have hstart : (Program.mk m []).start w [] ⟨0, g⟩ [] = .running ⟨w.entered, [Frame.fresh m g e []]⟩ :=
    start_of_room hphi he hroom
  unfold Program.callFunction
  simp only [hfind, resolve_of_body hbody, hfunc, hbody, hparams, hstart, Bool.false_eq_true, if_false,
    length_nil, bne_self_eq_false]

theorem execute_of_returned
    (hrun : (Program.mk m []).run limit ⟨w.entered, [Frame.fresh m g e []]⟩ = (.returned x, w')) :
    (Program.mk m []).execute limit w =
      (.ok (if (m.func g).sig.result.isVoid then 0 else (x.wrap 32).signed), w') := by
  have hbody := isDeclaration_of_entry he
  unfold Program.execute
  simp only [hfind, hbody, hparams, callFunction_main hphi hfind he hparams hroom, hrun,
    Bool.false_eq_true, if_false, isEmpty_nil, Bool.not_true]

theorem execute_of_stopped
    (hrun : (Program.mk m []).run limit ⟨w.entered, [Frame.fresh m g e []]⟩ = (.stopped why, w'))
    (hwhy : ∀ code, why ≠ .exit code) :
    (Program.mk m []).execute limit w = (.error why, w') := by
  have hbody := isDeclaration_of_entry he
  unfold Program.execute
  simp only [hfind, hbody, hparams, callFunction_main hphi hfind he hparams hroom, hrun,
    Bool.false_eq_true, if_false, isEmpty_nil, Bool.not_true]

end Machine

/-! ## Programs -/

theorem Core.Trap.Matches.ne_exit {trap : Trap} (h : trap.Matches why) (code : Int) :
    why ≠ .exit code := by
  cases trap with
  | divideByZero =>
    obtain ⟨func, block, what, rfl⟩ := h
    exact Stop.noConfusion
  | stackOverflow =>
    obtain ⟨func, block, rfl⟩ := h
    exact Stop.noConfusion

/-- The outcome of a program made of resolved methods: what its main method returns, or why it does
not. There is none if the fuel, the budget or the room does not suffice. -/
def Core.evalProgram (methods : List Core.Method) (fuel budget room : Nat) :
    Option (Except Trap Int) := do
  let main ← methods.find? fun r => r.origin.method.name == Target.entryPoint
  let outcome ← (evalCall methods fuel maxDepth main []).run.run ⟨fun _ => none, budget, room⟩
  return outcome.1

/-- A program whose main method is known has the outcome of that method. -/
theorem Core.evalProgram_of_find? {methods : List Core.Method} {main : Core.Method}
    {fuel room : Nat} {outcome : Except Trap Int}
    (hmain : methods.find? (fun r => r.origin.method.name == Target.entryPoint) = some main)
    (h : Core.evalProgram methods fuel budget room = some outcome) :
    ∃ σ, (evalCall methods fuel maxDepth main []).run.run ⟨fun _ => none, budget, room⟩ =
      some (outcome, σ) := by
  unfold evalProgram at h
  rw [hmain] at h
  obtain ⟨main', hmain', h⟩ := Option.bind_eq_some_iff.mp h
  obtain ⟨⟨_, σ⟩, hrun, hout⟩ := Option.bind_eq_some_iff.mp h
  cases hmain'
  cases hout
  exact ⟨σ, hrun⟩

/-- The exit status of a program whose main method has returned a value: its low 32 bits as a signed
number, and zero if the method has no result. -/
def Method.exitStatus (m : Method) (a : Int) : Int :=
  if m.result.unnamed.isVoid then 0 else a.bmod (2 ^ 32)

namespace SourceUnit

variable {u : SourceUnit} {packages : List Package} {M : Module} {c : Compilation} {main : Method}
  {st : Setting} {fs : List MethodFunc} {rs : List Core.Method}

/-- A method is where the program starts: no other method has its name, and it has no parameters. -/
structure StartsWith (u : SourceUnit) (main : Method) : Prop where
  single : u.methods.filter (fun m => m.name == Target.entryPoint) = [main]
  params : main.params = []

theorem StartsWith.iff (h : u.StartsWith main) {m : Method} :
    m ∈ u.methods ∧ m.name = Target.entryPoint ↔ m = main := by
  rw [show m = main ↔ m ∈ [main] from mem_singleton.symm, ← h.single, mem_filter,
    beq_iff_eq]

section

variable {limit : Int} {budget : Nat} (h : Compiled u st M fs rs) (hu : u.IsPlain)
  (hlimit : (budget : Int) ≤ limit)

/-- What is known about a compiled program, for runs within a limit of steps. -/
def Compiled.context : Simulation.Context :=
  ⟨M, fs, st, rs, limit, budget, h.noPhi, h.complete hu, hlimit⟩

theorem Compiled.callable {r : Core.Method} (hr : r ∈ rs) :
    ∃ d e p, fs.find? (fun d => d.method.same r.origin) = some d ∧ d ∈ fs ∧ d.method = r.origin ∧
      Simulation.Callable (h.context hu hlimit) r d.func e p := by
  have hf : r.origin ∈ u.origins := mem_reverse.mp (h.origins ▸ mem_map_of_mem hr)
  obtain ⟨d, hd, hdmem, hdmethod⟩ := h.exists_function hu hf
  obtain ⟨e, hbuilt⟩ := h.built r hr d hd
  have hsound := h.sound r hr
  obtain ⟨p, hp, -⟩ := hsound.result
  have hsigned := h.signed d hdmem
  exact ⟨d, e, p, hd, hdmem, hdmethod, hsound, hbuilt, hdmethod ▸ hsigned.params, hp,
    hsigned.result p (hdmethod ▸ hp)⟩

theorem Compiled.ready : Simulation.Ready (h.context hu hlimit) where
  callable r hr := by
    obtain ⟨d, e, p, hd, -, -, hcall⟩ := h.callable hu hlimit hr
    exact ⟨d, e, p, hd, hcall⟩
  called f r hf hr := by
    have hf := (h.known f).mp hf
    obtain ⟨r', hr', -, horigin⟩ := h.exists_method hu hf
    obtain rfl : r' = r := Option.some.inj (hr'.symm.trans hr)
    exact horigin

/-- The machine follows the main method of a compiled program. -/
theorem Compiled.after {r : Core.Method} {p : Primitive}
    (hcall : Simulation.Callable (h.context hu hlimit) r g e p)
    (hparams : r.origin.method.params = []) (fuel room : Nat) (hroom : room < 2 ^ 32) :
    Simulation.After (h.context hu hlimit) ⟨World.entered {}, [Frame.fresh M g e []]⟩
      (Core.evalCall rs fuel maxDepth r []) ⟨fun _ => none, budget, room⟩
      fun a σ z => Simulation.Leaving (h.context hu hlimit) ⟨g, e, 0, 0, 1⟩ [] {} 0 p a σ z := by
  cases fuel with
  | zero =>
    rw [Core.evalCall]
    exact Simulation.After.of_none rfl
  | succ fuel =>
    have hfits : List.Forall₂ Simulation.Fits r.origin.method.paramTypes [] := by
      unfold Method.paramTypes
      rw [hparams]
      exact .nil
    have hfollows : Simulation.After (h.context hu hlimit) ⟨World.entered {}, [Frame.fresh M g e []]⟩
        (Core.evalCall rs (fuel + 1) (9999 + 1) r []) ⟨fun _ => none, budget, room⟩ _ :=
      hcall.follows (n := 0) 0
        (fun _ => ((h.ready hu hlimit).correct fuel).stmts hcall.sound.body hcall.primitive)
        rfl hfits (show 0 + 0 + budget ≤ budget by omega) (show 0 + 0 + room < 2 ^ 32 by omega)
    exact hfollows.mono fun a σ z hz => hz.1

end

theorem exitStatus_eq {m : Method} {p : Primitive} {a : Int} (hp : m.result.unnamed.primitive? = some p)
    (hr : Core.IsResult m.result.unnamed) : m.exitStatus a =
      if p.machineType.isVoid then 0 else ((Word.ofInt a).wrap 32).signed := by
  obtain ⟨q, hq, hplain⟩ := hr
  obtain rfl : p = q := Option.some.inj (hp.symm.trans hq)
  have hvoid : m.result.unnamed.isVoid = p.machineType.isVoid := by
    unfold Ty.isVoid
    rw [hp]
    rcases hplain with hplain | rfl
    · cases p <;> rfl
    · rfl
  unfold Method.exitStatus
  rw [hvoid, Word.signed_wrap_thirtyTwo, Word.signed_ofInt, Int.bmod_bmod_of_dvd (by decide)]

/-- The main method of a compiled program among its resolved methods. -/
theorem Compiled.exists_main (h : Compiled u st M fs rs) (hu : u.IsPlain) (hmain : u.StartsWith main) :
    ∃ r ∈ rs, rs.find? (fun r => r.origin.method.name == Target.entryPoint) = some r ∧
      r.origin = ⟨u.number, main⟩ := by
  obtain ⟨hmem, hname⟩ := hmain.iff.mpr rfl
  have hf : (⟨u.number, main⟩ : MethodDef) ∈ u.origins := mem_map_of_mem hmem
  obtain ⟨r, -, hr, horigin⟩ := h.exists_method hu hf
  have hfound : (rs.find? fun r => r.origin.method.name == Target.entryPoint).isSome := by
    rw [List.find?_isSome]
    exact ⟨r, hr, by rw [horigin]; exact beq_iff_eq.mpr hname⟩
  obtain ⟨r', hr'⟩ := Option.isSome_iff_exists.mp hfound
  have hmem' := mem_of_find?_eq_some hr'
  have hname' : r'.origin.method.name = Target.entryPoint := by simpa using List.find?_some hr'
  have hf' : r'.origin ∈ u.origins := mem_reverse.mp (h.origins ▸ mem_map_of_mem hmem')
  obtain ⟨m, hm, hmr⟩ := mem_map.mp hf'
  rw [← hmr] at hname'
  obtain rfl := hmain.iff.mp ⟨hm, hname'⟩
  exact ⟨r', hmem', hr', hmr.symm⟩

/-- The function of the main method is the entry point of the module. -/
theorem Compiled.find?_main (h : Compiled u st M fs rs) (hmain : u.StartsWith main) {d : MethodFunc}
    (hd : d ∈ fs) (hmethod : d.method = ⟨u.number, main⟩) :
    M.find? Target.entryPoint = some d.func := by
  obtain ⟨-, hname⟩ := hmain.iff.mpr rfl
  have hown : (M.func d.func).name = Target.entryPoint := by
    rw [h.named d hd fun m hm heq => ?_, hmethod]
    · exact hname
    · rw [hmethod] at heq ⊢
      exact hmain.iff.mp ⟨hm, heq.trans hname⟩
  exact hown ▸ (h.signed d hd).find?

/-- The machine follows the evaluator of a plain program. -/
theorem IsPlain.follows (hu : u.IsPlain) (hmain : u.StartsWith main)
    (hc : u.compile packages = (.ok M, c)) {fuel room : Nat} (hlimit : (budget : Int) ≤ limit)
    (hroom : room < 2 ^ 32) :
    (∀ a, Core.evalProgram c.methods fuel budget room = some (.ok a) →
      ∃ w, (Program.mk M []).execute limit {} = (.ok (main.exitStatus a), w) ∧ w.written = []) ∧
    (∀ trap, Core.evalProgram c.methods fuel budget room = some (.error trap) →
      ∃ why w, (Program.mk M []).execute limit {} = (.error why, w) ∧ trap.Matches why ∧
        w.written = []) := by
  obtain ⟨st, h⟩ := hu.compiled hc
  obtain ⟨r, hr, hrmain, horigin⟩ := h.exists_main hu hmain
  obtain ⟨d, e, p, -, hdmem, hdmethod, hcall⟩ := h.callable hu hlimit hr
  rw [horigin] at hdmethod
  have hfind := h.find?_main hmain hdmem hdmethod
  have hentry : (M.func d.func).entry = some e := hcall.built.rooted.entry
  have hsig : (M.func d.func).sig.params = [] := by
    have hparams := (h.signed d hdmem).params
    rw [hdmethod, Method.paramTypes, hmain.params] at hparams
    exact forall₂_nil_right_iff.mp hparams
  have hafter := h.after hu hlimit hcall (by rw [horigin]; exact hmain.params) fuel room hroom
  have hprimitive := hcall.primitive
  have hresult := hcall.sound.result
  rw [horigin] at hprimitive hresult
  constructor
  · intro a ha
    obtain ⟨σ, hrun⟩ := Core.evalProgram_of_find? hrmain ha
    obtain ⟨z, hz, hleaving⟩ := (Simulation.After.of_ok hrun).mp hafter
    have hquiet := output_of_reaches hz
    obtain ⟨returns, -, -, -, -, -, -⟩ := hleaving
    rename_i w fr
    have hend : (Program.mk M []).run limit ⟨World.entered {}, [Frame.fresh M d.func e []]⟩ =
        (.returned (Word.ofInt a), w.without fr) :=
      (run_of_reaches hz).trans (run_of_done returns.leave)
    have hvoid : (M.func d.func).sig.result = p.machineType := hcall.result
    refine ⟨w.without fr, ?_, ?_⟩
    · rw [execute_of_returned h.noPhi hfind hentry hsig (by decide) hend, exitStatus_eq hprimitive hresult, hvoid]
    · unfold World.written
      rw [show (w.without fr).output = [] from hquiet]
      rfl
  · intro trap htrap
    obtain ⟨σ, hrun⟩ := Core.evalProgram_of_find? hrmain htrap
    obtain ⟨z, why, z', hz, hstep, hsilent, hmatches⟩ := (Simulation.After.of_error hrun).mp hafter
    have hquiet := output_of_reaches hz
    have hend := (run_of_reaches hz).trans (run_of_stopped hstep)
    refine ⟨why, _, execute_of_stopped h.noPhi hfind hentry hsig (by decide) hend fun code => ?_,
      hmatches, ?_⟩
    · exact hmatches.ne_exit code
    · unfold World.written
      rw [show z'.unwind.output = [] from hsilent.trans hquiet]
      rfl

/-- A text that is a plain program with a single main method is compiled to a module that does what
the evaluator says about the program. For every evaluation with some budget, and every limit of steps
that is not below the budget: if the main method returns a value, the machine ends with it as exit
status, and if there is none because of a trap, the machine stops for the same reason. Nothing is
written. -/
theorem execute_follows_evaluation {number : Nat} {file : String} {source : List Char}
    (hread : SourceUnit.read number file source = .ok u) (hplain : ∀ d ∈ u.decls, d.isPlain = true)
    (hmain : u.StartsWith main) (hc : u.compile packages = (.ok M, c)) :
    ∀ (fuel budget room : Nat) (limit : Int), (budget : Int) ≤ limit → room < 2 ^ 32 →
      (∀ a, Core.evalProgram c.methods fuel budget room = some (.ok a) →
        ∃ w, (Program.mk M []).execute limit {} = (.ok (main.exitStatus a), w) ∧ w.written = []) ∧
      (∀ trap, Core.evalProgram c.methods fuel budget room = some (.error trap) →
        ∃ why w, (Program.mk M []).execute limit {} = (.error why, w) ∧ trap.Matches why ∧
          w.written = []) := by
  intro fuel budget room limit hlimit hroom
  exact (IsPlain.of_read hread hplain).follows hmain hc hlimit hroom

/-- The greatest common divisor of 42 and 35, with a loop, a selection and recursion. -/
def gcdText : String :=
  "int gcd(int a, int b) \x7b return b == 0 ? a : gcd(b, a % b) \x7d\n" ++
  "int main() \x7b mut int n = 0\n while (n < 3) \x7b n++ \x7d\n return gcd(n * 14, 35) \x7d"

theorem execute_gcdText : ∃ u M c w, SourceUnit.read 0 "gcd.vs" gcdText.toList = .ok u ∧
    u.compile [] = (.ok M, c) ∧ Core.evalProgram c.methods 100 1000 1000 = some (.ok 7) ∧
    (Program.mk M []).execute 1000 {} = (.ok 7, w) ∧ w.written = [] := by
  have hcheck : ((SourceUnit.read 0 "gcd.vs" gcdText.toList).toOption.any fun u =>
      u.decls.all Decl.isPlain && ((u.compile []).1.toOption.any fun _ => true) &&
      decide (Core.evalProgram (u.compile []).2.methods 100 1000 1000 = some (.ok 7)) &&
      decide ((u.methods.filter fun m => m.name == Target.entryPoint).length = 1) &&
      (u.methods.filter fun m => m.name == Target.entryPoint).all fun main =>
        main.params.isEmpty && main.exitStatus 7 == 7) = true := by
    decide +kernel
  obtain ⟨u, hread, hcheck⟩ := exists_ok_of_any hcheck
  simp only [Bool.and_eq_true, decide_eq_true_eq] at hcheck
  obtain ⟨⟨⟨⟨hplain, hsome⟩, heval⟩, hlength⟩, hall⟩ := hcheck
  obtain ⟨main, hsingle⟩ := length_eq_one_iff.mp hlength
  rw [hsingle] at hall
  simp only [all_cons, all_nil, Bool.and_true, Bool.and_eq_true, List.isEmpty_iff,
    beq_iff_eq] at hall
  obtain ⟨M, hM, -⟩ := exists_ok_of_any hsome
  have hc : u.compile [] = (.ok M, (u.compile []).2) := Prod.ext hM rfl
  have hfollows := execute_follows_evaluation hread (all_eq_true.mp hplain)
    ⟨hsingle, hall.1⟩ hc 100 1000 1000 1000 (by decide) (by decide)
  obtain ⟨w, hexecute, hwritten⟩ := hfollows.1 7 heval
  rw [hall.2] at hexecute
  exact ⟨u, M, _, w, hread, hc, heval, hexecute, hwritten⟩

end SourceUnit

end SsaCompiler
