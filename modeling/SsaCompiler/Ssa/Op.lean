/-!
# Operations

What a value computes. An operation is *pure* if it may be dropped when nothing uses its value, and
*void* if it has no value. Constants and the addresses of global objects belong to no block.
-/

namespace SsaCompiler.Ssa

inductive Op where
  | invalid
  | constInt | constFloat | constNull | global
  | arg
  | alloca | malloc | free | load | store | elemPtr | fieldPtr
  | trunc | sext | zext | fpToSi | siToFp | fpTrunc | fpExt
  | add | sub | mul | div | rem | neg
  | fadd | fsub | fmul | fdiv | frem | fneg
  | not | and | or
  | icmp | fcmp
  | select | call | phi
  | unknown
  deriving DecidableEq, Repr, Inhabited

namespace Op

def all : List Op := [
  .invalid, .constInt, .constFloat, .constNull, .global, .arg, .alloca, .malloc, .free, .load,
  .store, .elemPtr, .fieldPtr, .trunc, .sext, .zext, .fpToSi, .siToFp, .fpTrunc, .fpExt, .add, .sub,
  .mul, .div, .rem, .neg, .fadd, .fsub, .fmul, .fdiv, .frem, .fneg, .not, .and, .or, .icmp, .fcmp,
  .select, .call, .phi]

def name : Op → String
  | .invalid => "Invalid"
  | .constInt => "ConstInt"
  | .constFloat => "ConstFloat"
  | .constNull => "ConstNull"
  | .global => "Global"
  | .arg => "Arg"
  | .alloca => "Alloca"
  | .malloc => "Malloc"
  | .free => "Free"
  | .load => "Load"
  | .store => "Store"
  | .elemPtr => "ElemPtr"
  | .fieldPtr => "FieldPtr"
  | .trunc => "Trunc"
  | .sext => "SExt"
  | .zext => "ZExt"
  | .fpToSi => "FPToSI"
  | .siToFp => "SIToFP"
  | .fpTrunc => "FPTrunc"
  | .fpExt => "FPExt"
  | .add => "Add"
  | .sub => "Sub"
  | .mul => "Mul"
  | .div => "Div"
  | .rem => "Rem"
  | .neg => "Neg"
  | .fadd => "FAdd"
  | .fsub => "FSub"
  | .fmul => "FMul"
  | .fdiv => "FDiv"
  | .frem => "FRem"
  | .fneg => "FNeg"
  | .not => "Not"
  | .and => "And"
  | .or => "Or"
  | .icmp => "ICmp"
  | .fcmp => "FCmp"
  | .select => "Select"
  | .call => "Call"
  | .phi => "Phi"
  | .unknown => "unknown"

def ofName (s : String) : Op :=
  (all.find? fun o => o.name == s).getD .unknown

def ofCode (n : Int) : Op :=
  if n < 0 then .unknown else (all[n.toNat]?).getD .unknown

/-- Whether the operation may be dropped when nothing uses its value. A division may fail, so it is
kept, and a slot on the stack that nothing uses may go. -/
def isPure : Op → Bool
  | .invalid | .unknown | .malloc | .free | .load | .store | .div | .rem | .call => false
  | _ => true

def isVoid : Op → Bool
  | .free | .store => true
  | _ => false

/-- Whether values of the operation belong to no block. -/
def isConst : Op → Bool
  | .constInt | .constFloat | .constNull | .global => true
  | _ => false

end Op

/-- A comparison of integers or addresses. -/
inductive IntPredicate where
  | eq | ne | slt | sle | sgt | sge
  deriving DecidableEq, Repr

namespace IntPredicate

def all : List IntPredicate := [.eq, .ne, .slt, .sle, .sgt, .sge]

def name : IntPredicate → String
  | .eq => "eq"
  | .ne => "ne"
  | .slt => "slt"
  | .sle => "sle"
  | .sgt => "sgt"
  | .sge => "sge"

def code : IntPredicate → Nat
  | .eq => 0
  | .ne => 1
  | .slt => 2
  | .sle => 3
  | .sgt => 4
  | .sge => 5

/-- The comparison of a given number; only the low byte counts. -/
def ofCode? (n : Int) : Option IntPredicate :=
  all[(n % 256).toNat]?

def nameOfCode (n : Int) : String :=
  (ofCode? n).elim "unknown" name

end IntPredicate

/-- A comparison of floating-point numbers, which fails if one of them is no number. -/
inductive FloatPredicate where
  | oeq | one | olt | ole | ogt | oge
  deriving DecidableEq, Repr

namespace FloatPredicate

def all : List FloatPredicate := [.oeq, .one, .olt, .ole, .ogt, .oge]

def name : FloatPredicate → String
  | .oeq => "oeq"
  | .one => "one"
  | .olt => "olt"
  | .ole => "ole"
  | .ogt => "ogt"
  | .oge => "oge"

def code : FloatPredicate → Nat
  | .oeq => 0
  | .one => 1
  | .olt => 2
  | .ole => 3
  | .ogt => 4
  | .oge => 5

/-- The comparison of a given number; only the low byte counts. -/
def ofCode? (n : Int) : Option FloatPredicate :=
  all[(n % 256).toNat]?

def nameOfCode (n : Int) : String :=
  (ofCode? n).elim "unknown" name

end FloatPredicate

end SsaCompiler.Ssa
