import SsaCompiler.Ssa.Ty

/-!
# Types in LLVM text

Pointers are opaque, so only their presence is written. Functions only appear behind pointers.
-/

namespace SsaCompiler.Llvm

open Ssa (Ty)

mutual

def typeText : Ty → String
  | .void => "void"
  | .int n => "i" ++ toString n
  | .float => "float"
  | .double => "double"
  | .pointer _ => "ptr"
  | .func .. => "ptr"
  | .array n t => "[" ++ toString n ++ " x " ++ typeText t ++ "]"
  | .struct [] => "\x7b\x7d"
  | .struct (t :: ts) => "\x7b " ++ ", ".intercalate (typeTexts (t :: ts)) ++ " \x7d"

def typeTexts : List Ty → List String
  | [] => []
  | t :: ts => typeText t :: typeTexts ts

end

def paramTexts (sig : Ty) : List String :=
  typeTexts sig.params

/-- The mark for further arguments. -/
def variadicText (sig : Ty) : List String :=
  if sig.isVariadic then ["..."] else []

def signatureText (sig : Ty) : String :=
  typeText sig.result ++ " (" ++ ", ".intercalate (paramTexts sig ++ variadicText sig) ++ ")"

end SsaCompiler.Llvm
