import SsaCompiler.Command.Options
import SsaCompiler.Diff.Unified
import SsaCompiler.Project.Basic

/-!
# The command line

Compiles a file, builds a project or makes a new one. A command writes to two streams and ends with
a status.
-/

namespace SsaCompiler.Command

variable (o : Options) (file : String)

/-- What a command has written, and its status. -/
structure Outcome where
  code : Int
  out : List UInt8 := []
  messages : String := ""
  /-- Whether the machine that ran a program broke. -/
  crashed : Bool := false
  deriving Repr

namespace Outcome

def printed (text : String) : Outcome :=
  { code := 0, out := Text.Utf8.encode text }

def failed (message : String) : Outcome :=
  { code := 1, messages := "error: " ++ message ++ "\n" }

/-- A command that fails with errors about units, one on each line. -/
def refused (messages : List String) : Outcome :=
  { code := 1, messages := String.join (messages.map (· ++ "\n")) }

end Outcome

def title : String := "Void Compiler 0.1.0-dev"

def usage : String :=
  title ++ "\n\nUsage:\n  voidc [options] <file.vs>\n  voidc build [options] <dir>\n"
    ++ "  voidc init <dir>\n\nOptions:\n" ++ String.join (Flag.all.map Flag.usage)

/-- How many values a program may compute. -/
def stepLimit : Int := 50000000

/-! ## Listings -/

def padRight (width : Nat) (s : String) : String :=
  s ++ String.ofList (List.replicate (width - s.length) ' ')

def shownChar (c : Char) : String :=
  if c == '\n' then "\\n" else if c == '\t' then "\\t" else if c == '\r' then "\\r" else c.toString

def tokenLine (position kind text : String) : String :=
  padRight 20 position ++ " " ++ padRight 12 kind ++ " " ++ text ++ "\n"

def tokenListing (tokens : List Token) : String :=
  let rule (n : Nat) : String := String.ofList (List.replicate n '-')
  tokenLine "POSITION" "TOKEN" "TEXT" ++ tokenLine (rule 20) (rule 12) (rule 20)
    ++ String.join (tokens.map fun t =>
      tokenLine (t.span.pos file).render t.kind.name (String.join (t.text.toList.map shownChar)))

def listTokens (source : List Char) : Outcome :=
  match Token.tokenize file source with
  | .error e => .refused [e.message]
  | .ok tokens => .printed (tokenListing file (if o.noAsi then tokens else Token.layout tokens))

def listTree (source : List Char) : Outcome :=
  match SourceUnit.read 0 file source with
  | .error e => .refused [e.message]
  | .ok u => .printed (String.join (u.decls.map fun d => (Outline.ofDecl d).render))

/-! ## Programs -/

def Options.building : BuildOptions :=
  { optimise := !o.noOpt, verify := o.verify }

def execute (b : Build) : Outcome :=
  match b.program? with
  | none => .failed Build.noProgram
  | some p =>
    let (result, world) := p.execute stepLimit {}
    match result with
    | .ok code => { code := code, out := world.written }
    | .error .crash =>
      { code := 2, out := world.written, messages := Machine.Stop.crash.message ++ "\n",
        crashed := true }
    | .error why => { Outcome.failed why.message with out := world.written }

section

variable {m : Type → Type} [Monad m] [Files m]

def compare (file output : String) : m Outcome := do
  match ← Files.read file with
  | .error f => return .failed f.message
  | .ok text =>
    let d := Diff.unified file "output" text output
    return { Outcome.printed d with code := if d == "" then 0 else 1 }

def deliver (output : String) : m Outcome := do
  if o.diff != "" then
    compare o.diff output
  else if o.output == "" then
    return .printed output
  else
    match ← Files.write o.output output with
    | .error f => return .failed f.message
    | .ok () => return { code := 0 }

def compileFile (target : BuildTarget) (file : String) : m Outcome := do
  match ← Build.ofFiles [file] o.building with
  | .error es => return .refused (es.map UnitError.message)
  | .ok b =>
    if o.run then
      return execute b
    match b.units.mapM (Build.unitText target o.buildId) with
    | .error e => return .failed e.message
    | .ok texts => deliver o (String.join texts)

def printFile (f : List Char → Outcome) : m Outcome := do
  match ← Files.read file with
  | .error e => return .failed e.message
  | .ok text => return f text.toList

def runFile : m Outcome :=
  match o.emit with
  | "tokens" => printFile file (listTokens o file)
  | "ast" | "ast-debug" => printFile file (listTree file)
  | "ssa" => compileFile o .listing file
  | "ll" => compileFile o .assembly file
  | format => return .failed ("unknown -emit format " ++ Text.quote format)

/-! ## Projects -/

def runInit (dir : String) : m Outcome := do
  match ← Project.make dir (Path.base (Path.clean dir)) with
  | .error e => return .failed e.message
  | .ok p => return .printed ("created project " ++ p.manifest.name ++ " in " ++ p.dir ++ "\n")

def logChar (c : Char) : List Char :=
  if c == '"' || c == '\\' then ['\\', c]
  else if c == '\n' then ['\\', 'n']
  else if c == '\r' then ['\\', 'r']
  else if c == '\t' then ['\\', 't']
  else if c.toNat < 0x20 then '\\' :: 'u' :: Text.Quoted.hex 4 c.toNat
  else [c]

/-- The line of a log about a file that has been written. -/
def wroteLine (path : String) : String :=
  "INFO\twrote\t\x7b\"path\": \"" ++ String.ofList (path.toList.flatMap logChar) ++ "\"\x7d\n"

def runBuild (dir : String) : m Outcome := do
  match ← Project.openIn dir with
  | .error e => return .failed e.message
  | .ok p =>
    match ← Build.ofFiles p.files o.building with
    | .error es => return .refused (es.map UnitError.message)
    | .ok b =>
      let target := (BuildTarget.ofName? p.manifest.target).getD .assembly
      if o.run || target == .run then
        return execute b
      let out := if o.output == "" then p.outputDir else o.output
      match ← b.emit out target o.buildId with
      | .error e => return .failed e.message
      | .ok paths => return { code := 0, messages := String.join (paths.map wroteLine) }

/-! ## Arguments -/

def misused (code : Int) (message : Option String) : Outcome :=
  { code := code, messages := (message.elim "" (· ++ "\n")) ++ usage }

inductive Verb where
  | build
  | init
  | file
  deriving DecidableEq, Repr

def splitVerb : List String → Verb × List String
  | "build" :: args => (.build, args)
  | "init" :: args => (.init, args)
  | args => (.file, args)

def run (args : List String) : m Outcome := do
  let (verb, args) := splitVerb args
  match parseOptions args with
  | .error e => return misused 2 e.message?
  | .ok (o, rest) =>
    if o.version || o.doctor then
      return .printed (title ++ "\n")
    match rest with
    | [input] =>
      match verb with
      | .init => runInit input
      | .build => runBuild o input
      | .file => runFile o input
    | _ => return misused 1 (some "error: want exactly one input")

end

end SsaCompiler.Command
