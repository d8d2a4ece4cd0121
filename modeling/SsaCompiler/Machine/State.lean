import SsaCompiler.Machine.Printf
import SsaCompiler.Ssa.Print

/-!
# The state of a machine

A machine runs the functions of a program: a module, and further modules that define functions which
it only declares. Its state is the memory with the output written so far, and a stack of frames, one
for each function that is active.
-/

namespace SsaCompiler.Machine

open Ssa (ValueRef BlockRef FuncRef)

/-- A program: the module that is run, and the modules linked to it. -/
structure Program where
  main : Ssa.Module
  /-- The modules that are searched for functions without a body. -/
  linked : List Ssa.Module := []

/-- A function of a program: the place of its module, which is zero for the module that is run, and
its place there. -/
structure FuncAt where
  module : Nat
  func : FuncRef
  deriving DecidableEq, Repr

namespace Program

def module (p : Program) (i : Nat) : Ssa.Module :=
  match i with
  | 0 => p.main
  | i + 1 => p.linked.getD i default

/-- The module that has the code of a function. -/
abbrev code (p : Program) (f : FuncAt) : Ssa.Module :=
  p.module f.module

def func (p : Program) (f : FuncAt) : Ssa.Func :=
  (p.code f).func f.func

/-- A function with a body of the given name among modules that have places from `i` on. -/
def findDefined (name : String) : (i : Nat) → List Ssa.Module → Option FuncAt
  | _, [] => none
  | i, m :: ms =>
    match m.find? name with
    | some f => if (m.func f).isDeclaration then findDefined name (i + 1) ms else some ⟨i, f⟩
    | none => findDefined name (i + 1) ms

/-- The function itself if it has a body, or the linked one of its name. -/
def resolve (p : Program) (f : FuncAt) : FuncAt :=
  if (p.func f).isDeclaration then
    (findDefined (p.func f).name 1 p.linked).getD f
  else f

end Program

/-- The registers of a frame. Registers that have not been set read as zero. -/
abbrev Registers := Std.HashMap ValueRef Word

/-- A function that is active. -/
structure Frame where
  func : FuncAt
  block : BlockRef
  /-- The values of the block that are still to be computed. A frame that has called another
  function keeps the call at the front. -/
  rest : List ValueRef
  regs : Registers := {}
  /-- The objects on the stack, the latest first. -/
  slots : List Word := []

/-- What outlives the functions: memory, output, and how far the machine has come. -/
structure World where
  memory : Memory := {}
  /-- The addresses of the constant texts that have been used, by module and place. -/
  globals : Std.HashMap (Nat × Nat) Word := {}
  /-- The output in pieces, the latest first. -/
  output : List (List UInt8) := []
  steps : Nat := 0
  depth : Nat := 0
  deriving Inhabited

def World.written (w : World) : List UInt8 :=
  w.output.reverse.flatten

/-- A fault of a single operation. -/
inductive Fault where
  | memory (f : MemoryFault)
  | print (f : PrintFault)
  | negativeCount (n : Int)
  | divideByZero
  /-- A floating-point number that is no integer of any size. -/
  | floatRange (bits : Word)
  | unsupported (op : Ssa.Op)
  | runtimeArity (name : String) (count : Nat)
  | undefined (name : String)
  | arity (name : String) (got want : Nat)
  deriving DecidableEq, Repr

def Fault.message : Fault → String
  | .memory f => f.message
  | .print f => f.message
  | .negativeCount n => "negative stack allocation count " ++ toString n
  | .divideByZero => "integer divide by zero"
  | .floatRange bits => "float " ++ Number.shortestText bits ++ " out of integer range"
  | .unsupported op => "unsupported op " ++ op.name
  | .runtimeArity name count => name ++ ": got " ++ toString count ++ " arguments"
  | .undefined name => "call to undefined external function " ++ name
  | .arity name got want =>
    name ++ ": got " ++ toString got ++ " arguments, want " ++ toString want

/-- Whether a fault breaks the machine itself, so that it reports nothing. -/
def Fault.isFatal : Fault → Bool
  | .memory .noObject | .print (.format .noObject) | .print (.text .noObject) => true
  | _ => false

/-- Why a run ended without a result. -/
inductive Stop where
  | exit (code : Int)
  /-- A fault while a function was executed. -/
  | runtime (func block message : String)
  | plain (message : String)
  | crash
  deriving DecidableEq, Repr

def Stop.message : Stop → String
  | .exit code => "exit status " ++ toString code
  | .runtime func block message =>
    "runtime error in " ++ func ++ ", " ++ block ++ ": " ++ message
  | .plain message => message
  | .crash => MemoryFault.noObject.message

/-- How a fault ends a run. The report names the place where it happened. -/
def Fault.stop (e : Fault) (report : String → Stop) : Stop :=
  if e.isFatal then .crash else report e.message

structure State where
  world : World
  frames : List Frame

end SsaCompiler.Machine
