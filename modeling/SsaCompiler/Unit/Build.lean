import SsaCompiler.Llvm.Module
import SsaCompiler.Machine.Run
import SsaCompiler.Ssa.Pass.Pipeline
import SsaCompiler.Unit.Compile

/-!
# Building programs

A program is made of units. All of them are declared before any of them is compiled, so that each
can import the packages of the others. The unit that defines the entry point is run with the modules
of the others linked to it.
-/

namespace SsaCompiler

inductive BuildError where
  | read (e : ReadError)
  | compile (e : Failure)
  | pass (message : String)

def Failure.message : Failure → String
  | .error e => e.render
  | .internal d => d.message

def BuildError.message : BuildError → String
  | .read e => e.message
  | .compile e => e.message
  | .pass message => message

structure BuildOptions where
  optimise : Bool := true
  verify : Bool := false
  deriving DecidableEq, Repr

def BuildOptions.passes (o : BuildOptions) : List Ssa.Pass :=
  if o.optimise then Ssa.Pass.standard else Ssa.Pass.cleanup

/-- A unit with what it declares. -/
structure DeclaredUnit where
  unit : SourceUnit
  package : Package

/-- A unit with its module. -/
structure BuiltUnit where
  file : String
  package : Package
  module : Ssa.Module

namespace DeclaredUnit

/-- Reads and declares units one after the other, numbering them from a given number. The first
error ends the work. -/
def ofSources (number : Nat) : List (String × List Char) → Except BuildError (List DeclaredUnit)
  | [] => .ok []
  | (file, source) :: rest =>
    match SourceUnit.read number file source with
    | .error e => .error (.read e)
    | .ok u =>
      match u.declare with
      | .error e => .error (.compile e)
      | .ok p => (ofSources (number + 1) rest).map (⟨u, p⟩ :: ·)

/-- Compiles a unit that may import the given packages, and runs the passes. -/
def build (u : DeclaredUnit) (packages : List Package) (o : BuildOptions) :
    Except BuildError BuiltUnit :=
  match (u.unit.compile packages).1 with
  | .error e => .error (.compile e)
  | .ok m =>
    let r := m.runPasses o.passes { verify := o.verify }
    match r.error? with
    | some message => .error (.pass message)
    | none => .ok ⟨u.unit.file, u.package, r.module⟩

end DeclaredUnit

/-- The modules of a program. -/
structure Build where
  units : List BuiltUnit

namespace Build

/-- Builds units that may import the given packages. The first error ends the work. -/
def buildAll (packages : List Package) (o : BuildOptions) :
    List DeclaredUnit → Except BuildError (List BuiltUnit)
  | [] => .ok []
  | u :: us =>
    match u.build packages o with
    | .error e => .error e
    | .ok b => (buildAll packages o us).map (b :: ·)

def ofUnits (units : List DeclaredUnit) (o : BuildOptions) : Except BuildError Build :=
  (buildAll (units.map DeclaredUnit.package) o units).map Build.mk

def definesEntry (m : Ssa.Module) : Bool :=
  (m.find? Target.entryPoint).any fun f => !(m.func f).isDeclaration

/-- The place of the first unit that defines the entry point. -/
def mainPlace? (b : Build) : Option Nat :=
  b.units.findIdx? fun u => definesEntry u.module

def programAt? (b : Build) (place : Nat) : Option Machine.Program :=
  b.units[place]?.map fun u =>
    { main := u.module, linked := (b.units.eraseIdx place).map BuiltUnit.module }

def program? (b : Build) : Option Machine.Program :=
  b.mainPlace?.bind b.programAt?

def noProgram : String :=
  "no unit defines " ++ Target.entryPoint

end Build

end SsaCompiler
