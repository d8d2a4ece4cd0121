import SsaCompiler.Ssa.Ty

/-!
# The target

What compiled programs share with the system they run on: the machine that text is generated for,
the external functions that are always there, and the names of the functions that every module may
get.
-/

namespace SsaCompiler.Target

def triple : String := "x86_64-pc-linux-gnu"

/-- The sizes and alignments of that machine. -/
def dataLayout : String :=
  "e-m:e-p270:32:32-p271:32:32-p272:64:64-i64:64-i128:128-f80:128-n8:16:32:64-S128"

def entryPoint : String := "main"

/-- The name of the function that checks an index, made once for each module. -/
def checkIndex : String := "__void_check_index"

/-- The name of the function that raises an integer to a power, made once for each module. -/
def integerPower : String := "__void_pow"

/-- Whether a name is kept for functions that a module may get. -/
def isHelperName (name : String) : Bool :=
  name.startsWith "__void_"

def indexMessageName : String := "__void_index_message"

/-- The text that an index check prints, as a format for the index and the length. -/
def indexMessage : String := "index out of bounds: index=%ld, length=%ld\n"

/-- The status with which a program ends after a failed index check. -/
def indexStatus : Int := 101

def indexError (index length : Int) : String :=
  "index out of bounds: index=" ++ toString index ++ ", length=" ++ toString length ++ "\n"

structure External where
  name : String
  result : String
  params : List String
  isVariadic : Bool := false
  neverReturns : Bool := false
  deriving DecidableEq, Repr

def External.render (e : External) : String :=
  "declare " ++ e.result ++ " @" ++ e.name ++ "("
    ++ ", ".intercalate (e.params ++ if e.isVariadic then ["..."] else []) ++ ")"
    ++ if e.neverReturns then " noreturn" else ""

def printf : External :=
  { name := "printf", result := "i32", params := ["ptr"], isVariadic := true }

def exit : External := { name := "exit", result := "void", params := ["i32"], neverReturns := true }

def malloc : External := { name := "malloc", result := "ptr", params := ["i64"] }

/-- The release of an object on the heap. -/
def free : External := { name := "free", result := "void", params := ["ptr"] }

def externals : List External := [printf, exit, malloc, free]

def external? (name : String) : Option External :=
  externals.find? fun e => e.name == name

end SsaCompiler.Target
