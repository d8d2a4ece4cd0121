import SsaCompiler.Manifest.Basic
import SsaCompiler.Yaml.Document
import SsaCompiler.Yaml.Scalar

/-!
# The text of a manifest

A manifest is a mapping with the keys `package` and `build`, whose values are mappings with the
settings. Settings that are not given, or given as null, stay empty. Unknown keys, keys that are
given twice and values of the wrong shape are errors.
-/

namespace SsaCompiler

inductive ManifestError where
  | empty
  | malformed (e : Yaml.Error)
  | shape (problems : List String)
  | refused (f : ManifestFault)
  deriving Repr

namespace ManifestError

/-- Whether the text, and not what it says, is to blame. -/
def isFormat : ManifestError → Bool
  | .malformed _ | .shape _ => true
  | _ => false

def message : ManifestError → String
  | .empty => "empty manifest"
  | .malformed e => e.message
  | .shape problems => "yaml: unmarshal errors:\n  " ++ "\n  ".intercalate problems
  | .refused f => f.message

end ManifestError

namespace Manifest

open Yaml (ScalarKind)

variable (n : Yaml.Node)

/-- Results together with problems of shape. -/
abbrev Shaped (α : Type) : Type := StateM (List String) α

def complain (what : String) : Shaped Unit :=
  modify (· ++ ["line " ++ toString (n.line + 1) ++ ": " ++ what])

/-! ## Reading -/

/-- What a scalar stands for. A tag decides; a kind that it does not allow is a problem. -/
def scalarKind (tag : Option String) (plain : Bool) (text : String) :
    Shaped ScalarKind := do
  let found := ScalarKind.ofPlain text
  match tag with
  | none => return if plain then found else .text
  | some t =>
    if t == ScalarKind.text.tag then return .text
    else if [.null, .boolean, .integer, .float, .time].any fun (k : ScalarKind) => k.tag == t then
      if t != found.tag && !(t == ScalarKind.float.tag && found == .integer) then
        complain n ("cannot decode " ++ found.tag ++ " as a " ++ t)
      return found
    else return .text

/-- The text of a value; none if the value is null or no text. -/
def textOf? : Shaped (Option String) := do
  match n with
  | .scalar _ tag plain text =>
    return if (← scalarKind n tag plain text) == .null then none else some text
  | _ =>
    complain n "expected a text"
    return none

/-- The texts of a value; null stands for none. -/
def textsOf : Shaped (List String) := do
  match n with
  | .sequence _ items => return (← items.mapM textOf?).filterMap id
  | .scalar _ tag plain text =>
    if (← scalarKind n tag plain text) != .null then complain n "expected a sequence"
    return []
  | .mapping .. =>
    complain n "expected a sequence"
    return []

def keyText : Yaml.Node → Bool × String
  | .scalar _ _ _ text => (true, text)
  | _ => (false, "")

def checkKeys : List (Yaml.Node × Yaml.Node) → Shaped Unit
  | [] => return ()
  | (k, _) :: rest => do
    if rest.any fun (k', _) => keyText k' == keyText k then
      complain k ("key " ++ Text.quote (keyText k).2 ++ " is given twice")
    checkKeys rest

/-- Whether a key stands for the entries of another mapping. -/
def isMerge : Yaml.Node → Bool
  | .scalar _ tag plain text => text == "<<" && plain && tag.all (· == ScalarKind.merge.tag)
  | _ => false

/-- The entries that a value of a merging key stands for. -/
def merged : Shaped (List (Yaml.Node × Yaml.Node)) := do
  match n with
  | .mapping _ entries => return entries
  | .sequence _ items =>
    let parts ← items.mapM fun i =>
      match i with
      | .mapping _ entries => return entries
      | i => do
        complain i "expected a mapping"
        return []
    return parts.flatten
  | n =>
    complain n "expected a mapping"
    return []

/-- The entries of a mapping, its own first; null stands for none. Merged entries do not replace
others. -/
def entriesOf : Shaped (List (Yaml.Node × Yaml.Node)) := do
  match n with
  | .mapping _ entries =>
    let before := (← get).length
    checkKeys entries
    if before < (← get).length then
      return []
    let own := entries.filter fun (k, _) => !isMerge k
    let more ← (entries.filter fun (k, _) => isMerge k).mapM fun (_, v) => merged v
    let more := more.flatten.filter fun (k, _) => !own.any fun (k', _) => keyText k' == keyText k
    return own ++ more
  | .scalar _ tag plain text =>
    if (← scalarKind n tag plain text) != .null then complain n "expected a mapping"
    return []
  | .sequence .. =>
    complain n "expected a mapping"
    return []

/-- Takes the entries of a mapping one after the other. Null keys are passed over. -/
def eachEntry (f : Manifest → String → Yaml.Node → Yaml.Node → Shaped Manifest) (m : Manifest)
    (n : Yaml.Node) : Shaped Manifest := do
  (← entriesOf n).foldlM (fun m (k, v) => do
    match ← textOf? k with
    | none => return m
    | some key => f m key k v) m

/-- Takes a setting about the project. -/
def packageEntry (m : Manifest) (key : String) (k v : Yaml.Node) : Shaped Manifest := do
  match key with
  | "name" => return { m with name := (← textOf? v).getD m.name }
  | "version" => return { m with version := (← textOf? v).getD m.version }
  | "authors" => return { m with authors := ← textsOf v }
  | _ =>
    complain k ("unknown key " ++ Text.quote key)
    return m

def buildEntry (m : Manifest) (key : String) (k v : Yaml.Node) : Shaped Manifest := do
  match key with
  | "target" => return { m with target := (← textOf? v).getD m.target }
  | "output" => return { m with output := (← textOf? v).getD m.output }
  | _ =>
    complain k ("unknown key " ++ Text.quote key)
    return m

def topEntry (m : Manifest) (key : String) (k v : Yaml.Node) : Shaped Manifest := do
  match key with
  | "package" => eachEntry packageEntry m v
  | "build" => eachEntry buildEntry m v
  | _ =>
    complain k ("unknown key " ++ Text.quote key)
    return m

def decode (text : List Char) : Except ManifestError Manifest :=
  match Yaml.parse text with
  | .error e => .error (.malformed e)
  | .ok none => .error .empty
  | .ok (some n) =>
    match (eachEntry topEntry {} n).run [] with
    | (m, []) =>
      let m := m.withDefaults
      match m.fault? with
      | some f => .error (.refused f)
      | none => .ok m
    | (_, problems) => .error (.shape problems)

/-! ## Writing -/

def settingLine (key value : String) : String :=
  Yaml.endLine ("  " ++ key ++ ": " ++ Yaml.writeScalar 4 value)

/-- The authors, each on a line of its own; nothing if there are none. -/
def authorLines (authors : List String) : String :=
  if authors.isEmpty then ""
  else
    "  authors:\n"
      ++ String.join (authors.map fun a => Yaml.endLine ("    - " ++ Yaml.writeScalar 6 a))

def encode (m : Manifest) : String :=
  "package:\n" ++ settingLine "name" m.name ++ settingLine "version" m.version
    ++ authorLines m.authors ++ "build:\n" ++ settingLine "target" m.target
    ++ settingLine "output" m.output

end Manifest

end SsaCompiler
