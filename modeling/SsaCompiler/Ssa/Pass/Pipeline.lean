import SsaCompiler.Ssa.Pass.DeadCode
import SsaCompiler.Ssa.Pass.Promote
import SsaCompiler.Ssa.Verify

/-!
# Pipelines

Passes are run one after the other on every function. Before and after a pass the function can be
verified and listed. An error ends the work on its function; the others go on.
-/

namespace SsaCompiler.Ssa

inductive Pass where
  | deadBlocks
  | promote
  | deadValues
  deriving DecidableEq, Repr

namespace Pass

def name : Pass → String
  | .deadBlocks => "deadblocks"
  | .promote => "mem2reg"
  | .deadValues => "deadvalues"

def ofName? (s : String) : Option Pass :=
  [.deadBlocks, .promote, .deadValues].find? fun p => p.name == s

def apply (p : Pass) (m : Module) (f : FuncRef) : Module :=
  match p with
  | .deadBlocks => m.removeUnreachable f
  | .promote => m.promoteSlots f
  | .deadValues => m.removeDeadValues f

/-- The optimising pipeline. Blocks that cannot be reached go first. -/
def standard : List Pass := [.deadBlocks, .promote, .deadValues]

def cleanup : List Pass := [.deadBlocks]

end Pass

/-- What is done around passes. -/
structure PassConfig where
  /-- The pass before which functions are listed; `*` stands for all. -/
  dumpBefore : String := ""
  /-- The pass after which functions are listed; `*` stands for all. -/
  dumpAfter : String := ""
  verify : Bool := false
  /-- The only function that is listed; empty for all. -/
  dumpFunc : String := ""
  deriving DecidableEq, Repr

namespace PassConfig

/-- The listing of a function around a pass, if it is asked for. -/
def dump (c : PassConfig) (pattern moment : String) (p : Pass) (m : Module) (f : FuncRef) :
    String :=
  let name := (m.func f).name
  if (pattern == "*" || pattern == p.name) && (c.dumpFunc == "" || c.dumpFunc == name) then
    "--- " ++ moment ++ " " ++ p.name ++ " (" ++ name ++ ") ---\n" ++ m.showFunc f ++ "\n"
  else ""

/-- The error of verification around a pass, if there is one. -/
def check (c : PassConfig) (moment : String) (p : Pass) (m : Module) (f : FuncRef) :
    Option String :=
  if c.verify then
    match m.verify f with
    | [] => none
    | complaints =>
      some ("verify " ++ moment ++ " " ++ p.name ++ ": " ++ Module.complaintText complaints)
  else none

end PassConfig

structure PassResult where
  module : Module
  /-- What was listed, piece by piece, the latest first. -/
  dumps : List String := []
  errors : List String := []

namespace PassResult

def dump (r : PassResult) : String :=
  String.join r.dumps.reverse

/-- The message for all errors, if there are any. -/
def error? (r : PassResult) : Option String :=
  if r.errors.isEmpty then none else some ("; ".intercalate r.errors)

end PassResult

def runPasses (c : PassConfig) (f : FuncRef) : List Pass → PassResult → PassResult
  | [], r => r
  | p :: ps, r =>
    let r := { r with dumps := c.dump c.dumpBefore "before" p r.module f :: r.dumps }
    match c.check "before" p r.module f with
    | some e => { r with errors := r.errors ++ [e] }
    | none =>
      let r := { r with module := p.apply r.module f }
      match c.check "after" p r.module f with
      | some e => { r with errors := r.errors ++ [e] }
      | none =>
        runPasses c f ps { r with dumps := c.dump c.dumpAfter "after" p r.module f :: r.dumps }

/-- Runs passes on every function of a module that has a body. -/
def Module.runPasses (m : Module) (passes : List Pass) (c : PassConfig) : PassResult :=
  (List.range m.funcs.size).foldl (fun r f =>
    if (r.module.func f).isDeclaration then r else Ssa.runPasses c f passes r) { module := m }

end SsaCompiler.Ssa
