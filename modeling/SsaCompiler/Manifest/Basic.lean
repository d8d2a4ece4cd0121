import SsaCompiler.Text.Quoted

/-!
# Manifests

The manifest of a project names it and says what a build produces.
-/

namespace SsaCompiler

inductive BuildTarget where
  | assembly
  | listing
  | run
  deriving DecidableEq, Repr

namespace BuildTarget

/-- The name of a target, which is also the ending of the files it produces. -/
def name : BuildTarget → String
  | .assembly => "ll"
  | .listing => "ssa"
  | .run => "run"

def ofName? (s : String) : Option BuildTarget :=
  [.assembly, .listing, .run].find? fun t => t.name == s

end BuildTarget

structure Manifest where
  name : String := ""
  version : String := ""
  authors : List String := []
  target : String := ""
  output : String := ""
  deriving DecidableEq, Repr

inductive ManifestFault where
  | noName
  | badName (name : String)
  | badVersion (version : String)
  | unknownTarget (target : String)
  deriving DecidableEq, Repr

def ManifestFault.message : ManifestFault → String
  | .noName => "package.name is required"
  | .badName name => "invalid package.name " ++ Text.quote name
  | .badVersion version => "invalid package.version " ++ Text.quote version ++ ", want x.y.z"
  | .unknownTarget target =>
    "unknown build.target " ++ Text.quote target ++ " (want ll, ssa or run)"

namespace Manifest

/-- The directory for what a build produces, if none is given. -/
def defaultOutput : String := "build"

def fresh (name : String) : Manifest :=
  { name := name, version := "0.1.0", target := BuildTarget.assembly.name, output := defaultOutput }

/-- Fills settings that are empty. -/
def withDefaults (m : Manifest) : Manifest :=
  { m with target := if m.target == "" then BuildTarget.assembly.name else m.target,
           output := if m.output == "" then defaultOutput else m.output }

/-- Whether a text is a name: a letter or an underscore, followed by letters, digits, underscores
and hyphens. -/
def isName (s : String) : Bool :=
  match s.toList with
  | [] => false
  | c :: cs =>
    (c.isAlpha || c == '_') && cs.all fun c => c.isAlphanum || c == '_' || c == '-'

/-- Whether a text is a version: three numbers divided by dots. -/
def isVersion (s : String) : Bool :=
  let isNumber (t : String) : Bool := !t.isEmpty && t.toList.all Char.isDigit
  match s.splitOn "." with
  | [x, y, z] => isNumber x && isNumber y && isNumber z
  | _ => false

def fault? (m : Manifest) : Option ManifestFault :=
  if m.name == "" then some .noName
  else if !isName m.name then some (.badName m.name)
  else if !isVersion m.version then some (.badVersion m.version)
  else if (BuildTarget.ofName? m.target).isNone then some (.unknownTarget m.target)
  else none

end Manifest

end SsaCompiler
