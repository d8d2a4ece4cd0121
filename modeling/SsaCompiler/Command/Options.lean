import SsaCompiler.Number.Radix
import SsaCompiler.Text.Quoted

/-!
# Options of the command line

An option starts with one hyphen or two. Its value stands behind an equals sign, or, unless the
option is a switch, in the next argument. Options end at the first argument that is none, and behind
two hyphens alone.
-/

namespace SsaCompiler.Command

inductive Flag where
  | buildId | diff | doctor | emit | jobs | logFile | metrics | noAsi | noOpt | output | run
  | verify | verbose | version
  deriving DecidableEq, Repr

inductive FlagKind where
  | switch
  | text
  | number
  deriving DecidableEq, Repr

namespace Flag

def all : List Flag :=
  [.buildId, .diff, .doctor, .emit, .jobs, .logFile, .metrics, .noAsi, .noOpt, .output, .run,
    .verify, .verbose, .version]

def name : Flag → String
  | .buildId => "build-id"
  | .diff => "diff"
  | .doctor => "doctor"
  | .emit => "emit"
  | .jobs => "j"
  | .logFile => "log-file"
  | .metrics => "metrics"
  | .noAsi => "no-asi"
  | .noOpt => "no-opt"
  | .output => "o"
  | .run => "run"
  | .verify => "ssa-verify"
  | .verbose => "v"
  | .version => "version"

def ofName? (s : String) : Option Flag :=
  all.find? fun f => f.name == s

def kind : Flag → FlagKind
  | .buildId | .diff | .emit | .logFile | .output => .text
  | .jobs => .number
  | _ => .switch

def help : Flag → String
  | .buildId => "Build identifier for the module header (default: random KSUID)"
  | .diff => "Compare the ssa or ll output with this file"
  | .doctor => "Check toolchain"
  | .emit => "Output format: tokens, ast, ast-debug, ssa or ll (default \"ll\")"
  | .jobs => "Units compiled in parallel (default: GOMAXPROCS)"
  | .logFile => "Write JSON logs to this file, rotated by size"
  | .metrics => "Print phase metrics after compiling"
  | .noAsi => "Disable automatic semicolon insertion for -emit=tokens"
  | .noOpt => "Skip mem2reg and dead value elimination"
  | .output => "Output file, or output directory for build"
  | .run => "Interpret main and exit with its status"
  | .verify => "Verify SSA before and after each pass"
  | .verbose => "Log compiler phases"
  | .version => "Print version"

/-- The lines about an option. A short name and its help fit one line. -/
def usage (f : Flag) : String :=
  let value :=
    match f.kind with
    | .switch => ""
    | .text => " string"
    | .number => " int"
  let start := "  -" ++ f.name ++ value
  start ++ (if start.length ≤ 4 then "\t" else "\n    \t") ++ f.help ++ "\n"

end Flag

structure Options where
  emit : String := "ll"
  run : Bool := false
  output : String := ""
  noOpt : Bool := false
  /-- Whether tokens are printed as they are written. -/
  noAsi : Bool := false
  /-- Whether modules are verified around each pass. -/
  verify : Bool := false
  /-- A file that the output is compared with. -/
  diff : String := ""
  /-- The identifier in the head of a module. -/
  buildId : String := ""
  version : Bool := false
  doctor : Bool := false
  deriving DecidableEq, Repr

namespace Options

def setSwitch (o : Options) (f : Flag) (value : Bool) : Options :=
  match f with
  | .run => { o with run := value }
  | .noOpt => { o with noOpt := value }
  | .noAsi => { o with noAsi := value }
  | .verify => { o with verify := value }
  | .version => { o with version := value }
  | .doctor => { o with doctor := value }
  | _ => o

def setText (o : Options) (f : Flag) (value : String) : Options :=
  match f with
  | .emit => { o with emit := value }
  | .output => { o with output := value }
  | .diff => { o with diff := value }
  | .buildId => { o with buildId := value }
  | _ => o

end Options

inductive OptionError where
  | help
  | malformed (arg : String)
  | unknown (name : String)
  | noValue (name : String)
  | badSwitch (name value : String)
  | badNumber (name value : String) (e : Number.WordError)
  deriving DecidableEq, Repr

/-- What is said about arguments that are refused; help needs no words. -/
def OptionError.message? : OptionError → Option String
  | .help => none
  | .malformed arg => some ("bad flag syntax: " ++ arg)
  | .unknown name => some ("flag provided but not defined: -" ++ name)
  | .noValue name => some ("flag needs an argument: -" ++ name)
  | .badSwitch name value =>
    some ("invalid boolean value " ++ Text.quote value ++ " for -" ++ name ++ ": parse error")
  | .badNumber name value e =>
    let reason :=
      match e with
      | .malformed => "parse error"
      | .tooLarge => "value out of range"
    some ("invalid value " ++ Text.quote value ++ " for flag -" ++ name ++ ": " ++ reason)

def switchValue? (s : String) : Option Bool :=
  if ["1", "t", "T", "TRUE", "true", "True"].contains s then some true
  else if ["0", "f", "F", "FALSE", "false", "False"].contains s then some false
  else none

/-- An argument as an option: its name, and its value if it has one. Without an error, no option
means that the argument is none. -/
def splitOption (arg : String) : Except OptionError (Option (String × Option String)) :=
  match arg.toList with
  | '-' :: c :: cs =>
    let body := if c == '-' then cs else c :: cs
    match body with
    | [] | '-' :: _ | '=' :: _ => .error (.malformed arg)
    | n :: rest =>
      let name := n :: rest.takeWhile (· != '=')
      let value :=
        match rest.dropWhile (· != '=') with
        | [] => none
        | _ :: v => some (String.ofList v)
      .ok (some (String.ofList name, value))
  | _ => .ok none

def Options.set (o : Options) (f : Flag) (value : String) : Except OptionError Options :=
  match f.kind with
  | .text => .ok (o.setText f value)
  | .switch =>
    match switchValue? value with
    | some b => .ok (o.setSwitch f b)
    | none => .error (.badSwitch f.name value)
  | .number =>
    match Number.readSigned 64 value.toList with
    | .ok _ => .ok o
    | .error e => .error (.badNumber f.name value e)

/-- Reads options from arguments; the other arguments are left over. -/
def Options.read (o : Options) : (fuel : Nat) → List String →
    Except OptionError (Options × List String)
  | 0, args => .ok (o, args)
  | _, [] => .ok (o, [])
  | fuel + 1, arg :: args =>
    if arg == "--" then .ok (o, args)
    else
      match splitOption arg with
      | .error e => .error e
      | .ok none => .ok (o, arg :: args)
      | .ok (some (name, value)) =>
        match Flag.ofName? name with
        | none => .error (if name == "help" || name == "h" then .help else .unknown name)
        | some f =>
          match value, f.kind, args with
          | some v, _, _ => (o.set f v).bind fun o => o.read fuel args
          | none, .switch, _ => (o.setSwitch f true).read fuel args
          | none, _, v :: args => (o.set f v).bind fun o => o.read fuel args
          | none, _, [] => .error (.noValue name)

def parseOptions (args : List String) : Except OptionError (Options × List String) :=
  Options.read {} args.length args

end SsaCompiler.Command
