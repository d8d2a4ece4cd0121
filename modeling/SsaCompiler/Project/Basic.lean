import SsaCompiler.FileTree.Basic
import SsaCompiler.Manifest.Text
import SsaCompiler.Unit.Build

/-!
# Projects

A project is a directory with a manifest and with units below a directory for sources. A build reads
all units, declares all of them, and compiles all of them; the errors of one such stage are reported
together, and a stage with errors is the last one.
-/

namespace SsaCompiler

/-- Why a project cannot be opened or made. -/
inductive ProjectError where
  | file (f : FileFault)
  | manifest (path : String) (e : ManifestError)
  | refused (f : ManifestFault)
  | noSources (path : String)
  | taken (path : String)

def sourceExtension : String := ".vs"

def ProjectError.message : ProjectError → String
  | .file f => f.message
  | .manifest path e => path ++ ": " ++ e.message
  | .refused f => f.message
  | .noSources path => path ++ ": no " ++ sourceExtension ++ " files"
  | .taken path => path ++ " already exists"

structure Project where
  dir : String
  manifest : Manifest
  files : List String

namespace Project

def manifestName : String := "project.yaml"

def sourceDir : String := "src"

def outputDir (p : Project) : String :=
  Path.join p.dir p.manifest.output

section

variable {m : Type → Type} [Monad m] [Files m]

def readManifest (dir : String) : m (Except ProjectError Manifest) := do
  let path := Path.join dir manifestName
  match ← Files.read path with
  | .error f => return .error (.file f)
  | .ok text =>
    match Manifest.decode text.toList with
    | .error e => return .error (.manifest path e)
    | .ok manifest => return .ok manifest

def openIn (dir : String) : m (Except ProjectError Project) := do
  match ← readManifest dir with
  | .error e => return .error e
  | .ok manifest =>
    let root := Path.join dir sourceDir
    match ← Files.filesBelow root with
    | .error f => return .error (.file f)
    | .ok found =>
      let files := found.filter fun path => Path.extension path == sourceExtension
      if files.isEmpty then return .error (.noSources root)
      else return .ok ⟨dir, manifest, files.mergeSort fun a b => !(b < a)⟩

/-! ## New projects -/

def firstUnit (manifest : Manifest) : String :=
  "package \"main\"\n\n// " ++ manifest.name ++ " " ++ manifest.version ++ "\n\n"
    ++ "int square(int n) \x7b\n    return n * n\n\x7d\n\n"
    ++ "int main() \x7b\n    mut i = 1\n    mut sum = 0\n"
    ++ "    while (i <= 4) \x7b\n        sum = sum + square(i)\n        i++\n    \x7d\n"
    ++ "    println(\"" ++ manifest.name ++ ":\", sum)\n    return 0\n\x7d\n"

def newFiles (manifest : Manifest) : List (String × String) :=
  [(manifestName, manifest.encode),
    (Path.join sourceDir ("main" ++ sourceExtension), firstUnit manifest),
    (".gitignore", "/" ++ manifest.output ++ "/\n")]

/-- Writes files below a directory. The first failure ends the work. -/
def writeAll (dir : String) : List (String × String) → m (Except FileFault Unit)
  | [] => return .ok ()
  | (name, text) :: rest => do
    match ← Files.write (Path.join dir name) text with
    | .error f => return .error f
    | .ok () => writeAll dir rest

def make (dir name : String) : m (Except ProjectError Project) := do
  let manifest := Manifest.fresh name
  match manifest.fault? with
  | some f => return .error (.refused f)
  | none =>
    let path := Path.join dir manifestName
    if ← Files.isThere path then
      return .error (.taken path)
    match ← Files.makeDirs (Path.join dir sourceDir) with
    | .error f => return .error (.file f)
    | .ok () =>
      match ← writeAll dir (newFiles manifest) with
      | .error f => return .error (.file f)
      | .ok () => openIn dir

end

end Project

/-! ## Builds -/

/-- Why a unit of a build gives no module. -/
inductive UnitError where
  | file (f : FileFault)
  | unit (file : String) (e : BuildError)
  | packageTaken (file package other : String)

def UnitError.message : UnitError → String
  | .file f => f.message
  | .unit path (.pass message) => path ++ ": " ++ message
  | .unit _ e => e.message
  | .packageTaken path package other =>
    path ++ ": package " ++ package ++ " already declared by " ++ other

namespace Build

def allOrErrors {ε α : Type} (rs : List (Except ε α)) : Except (List ε) (List α) :=
  let errors := rs.filterMap fun
    | .error e => some e
    | .ok _ => none
  if errors.isEmpty then
    .ok (rs.filterMap fun
      | .error _ => none
      | .ok x => some x)
  else .error errors

def readAll (number : Nat) : List (String × Except FileFault String) →
    List (Except UnitError SourceUnit)
  | [] => []
  | (file, text) :: rest =>
    let r :=
      match text with
      | .error f => .error (.file f)
      | .ok text =>
        match SourceUnit.read number file text.toList with
        | .error e => .error (.unit file (.read e))
        | .ok u => .ok u
    r :: readAll (number + 1) rest

/-- Declares units behind others. No two of them may have the same package. -/
def declareAll (known : List DeclaredUnit) : List SourceUnit → List (Except UnitError DeclaredUnit)
  | [] => []
  | u :: us =>
    match u.declare with
    | .error e => .error (.unit u.file (.compile e)) :: declareAll known us
    | .ok p =>
      match known.find? fun d => d.package.name == p.name with
      | some d => .error (.packageTaken u.file p.name d.unit.file) :: declareAll known us
      | none => .ok ⟨u, p⟩ :: declareAll (known ++ [⟨u, p⟩]) us

def compileAll (units : List DeclaredUnit) (o : BuildOptions) : List (Except UnitError BuiltUnit) :=
  units.map fun u =>
    match u.build (units.map DeclaredUnit.package) o with
    | .error e => .error (.unit u.unit.file e)
    | .ok b => .ok b

def ofTexts (texts : List (String × Except FileFault String)) (o : BuildOptions) :
    Except (List UnitError) Build := do
  let units ← allOrErrors (readAll 0 texts)
  let declared ← allOrErrors (declareAll [] units)
  let built ← allOrErrors (compileAll declared o)
  return ⟨built⟩

section

variable {m : Type → Type} [Monad m] [Files m]

def ofFiles (files : List String) (o : BuildOptions) : m (Except (List UnitError) Build) := do
  let texts ← files.mapM fun file => do
    return (file, ← Files.read file)
  return ofTexts texts o

end

/-! ## Products -/

/-- Why a build has not written all its products. -/
inductive EmitError where
  | file (f : FileFault)
  | target (t : BuildTarget)
  deriving DecidableEq, Repr

def EmitError.message : EmitError → String
  | .file f => f.message
  | .target t => "cannot write target " ++ Text.quote t.name

def unitText (target : BuildTarget) (buildId : String) (u : BuiltUnit) : Except EmitError String :=
  match target with
  | .assembly => .ok (Llvm.render { buildId := buildId, source := u.file } u.module)
  | .listing => .ok u.module.render
  | .run => .error (.target target)

def unitFile (target : BuildTarget) (u : BuiltUnit) : String :=
  u.package.name ++ "." ++ target.name

def unitPath (dir : String) (target : BuildTarget) (u : BuiltUnit) : String :=
  Path.join dir (unitFile target u)

section

variable {m : Type → Type} [Monad m] [Files m]

/-- Writes a product. Its file is made even if there is nothing to write. -/
def writeProduct (path : String) (text : Except EmitError String) : m (Except EmitError Unit) := do
  match ← Files.write path (text.toOption.getD "") with
  | .error f => return .error (.file f)
  | .ok () => return text.map fun _ => ()

/-- Writes what a build produces for units. The paths written are the result. -/
def emitUnits (dir : String) (target : BuildTarget) (buildId : String) :
    List BuiltUnit → m (Except EmitError (List String))
  | [] => return .ok []
  | u :: us => do
    let path := unitPath dir target u
    match ← writeProduct path (unitText target buildId u) with
    | .error e => return .error e
    | .ok () =>
      match ← emitUnits dir target buildId us with
      | .error e => return .error e
      | .ok paths => return .ok (path :: paths)

/-- Writes what a build produces into a directory, which is made if it is not there. -/
def emit (b : Build) (dir : String) (target : BuildTarget) (buildId : String) :
    m (Except EmitError (List String)) := do
  match ← Files.makeDirs dir with
  | .error f => return .error (.file f)
  | .ok () => emitUnits dir target buildId b.units

end

end Build

end SsaCompiler
