import SsaCompiler.Llvm.Type
import SsaCompiler.Number.Binary
import SsaCompiler.Ssa.Module
import SsaCompiler.Target
import SsaCompiler.Text.Quoted

/-!
# Modules as LLVM text

The text of a module is a header, the constant texts, the declarations, and the functions with a
body. Constants stand where they are used; every other value gets a line of its own. The heap
functions are declared if the module uses the heap without declaring them itself.
-/

namespace SsaCompiler.Llvm

open Ssa (Ty Value ValueRef Block BlockRef Func)

variable (m : Ssa.Module) (v : Value)

/-! ## Names and literals -/

def escapeByte (b : UInt8) : List Char :=
  let c := Char.ofNat b.toNat
  if c == '\\' || c == '"' || b < 0x20 || 0x7f ≤ b then
    '\\' :: (Text.Quoted.hex 2 b.toNat).map Char.toUpper
  else [c]

def escapeBytes (bytes : List UInt8) : String :=
  String.ofList (bytes.flatMap escapeByte)

def escape (s : String) : String :=
  escapeBytes s.toUTF8.toList

def floatLiteral (bits : UInt64) : String :=
  "0x" ++ String.ofList ((Text.Quoted.hex 16 bits.toNat).map Char.toUpper)

def valueName : String :=
  "%v" ++ toString v.number

def paramName (i : Int) : String :=
  "%arg" ++ toString i

def blockLabel (b : Block) : String :=
  if b.number == 0 then "entry" else "b" ++ toString b.number

def operand : String :=
  match v.op with
  | .constInt =>
    if v.type.bits == 1 then (if v.auxInt != 0 then "true" else "false") else toString v.auxInt
  | .constFloat =>
    floatLiteral (if v.type.bits == 32 then Number.Binary64.toSingle v.auxFloat else v.auxFloat)
  | .constNull => "null"
  | .global =>
    match v.aux with
    | .global g => "@" ++ (m.globals[g]?).elim "" Ssa.Global.name
    | _ => "@"
  | .arg => paramName v.auxInt
  | _ => valueName v

def typedOperand : String :=
  typeText v.type ++ " " ++ operand m v

/-! ## Instructions -/

def pointee : Ty :=
  v.type.elem?.getD .void

/-- The arguments of a phi value with the blocks that they come from. -/
def phiText (args : List Value) : String :=
  let preds := (v.block.map m.block).elim [] Block.preds
  ", ".intercalate (args.zipWith
    (fun a p => "[ " ++ operand m a ++ ", %" ++ blockLabel (m.block p) ++ " ]") preds)

/-- A call without the name of its result. -/
def callText (args : List Value) : String :=
  let f : Func :=
    match v.aux with
    | .callee f => m.func f
    | _ => default
  let type := if f.sig.isVariadic then signatureText f.sig else typeText f.sig.result
  "call " ++ type ++ " @" ++ f.name ++ "(" ++ ", ".intercalate (args.map (typedOperand m)) ++ ")"

/-- An instruction of two operands of the same type. -/
def binaryText (word : String) (type : Ty) (x y : Value) : String :=
  word ++ " " ++ typeText type ++ " " ++ operand m x ++ ", " ++ operand m y

def convertText (word : String) (v x : Value) : String :=
  word ++ " " ++ typedOperand m x ++ " to " ++ typeText v.type

/-- The address of an element: of an array, or behind the first one. -/
def elementText (base index : Value) : String :=
  let first :=
    match pointee base with
    | .array .. => "i64 0, "
    | _ => ""
  "getelementptr " ++ typeText (pointee base) ++ ", ptr " ++ operand m base ++ ", " ++ first
    ++ typedOperand m index

/-- The instruction of a value without a name in front, and whether it has a result. None if there
is no instruction. -/
def instruction? : Option (Bool × String) :=
  let args := v.args.map fun a => (a.map m.value).getD default
  let x := args.getD 0 default
  let y := args.getD 1 default
  let z := args.getD 2 default
  let binary (word : String) : Option (Bool × String) := some (true, binaryText m word v.type x y)
  let convert (word : String) : Option (Bool × String) := some (true, convertText m word v x)
  match v.op with
  | .arg => none
  | .alloca =>
    some (true, "alloca " ++ typeText (pointee v)
      ++ if args.isEmpty then "" else ", " ++ typedOperand m x)
  | .malloc => some (true, "call ptr @malloc(i64 " ++ toString v.auxInt ++ ")")
  | .free => some (false, "call void @free(ptr " ++ operand m x ++ ")")
  | .load => some (true, "load " ++ typeText v.type ++ ", ptr " ++ operand m x)
  | .store => some (false, "store " ++ typedOperand m y ++ ", ptr " ++ operand m x)
  | .elemPtr => some (true, elementText m x y)
  | .fieldPtr =>
    some (true, "getelementptr " ++ typeText (pointee x) ++ ", ptr " ++ operand m x
      ++ ", i32 0, i32 " ++ toString v.auxInt)
  | .trunc => convert "trunc"
  | .sext => convert "sext"
  | .zext => convert "zext"
  | .fpToSi => convert "fptosi"
  | .siToFp => convert "sitofp"
  | .fpTrunc => convert "fptrunc"
  | .fpExt => convert "fpext"
  | .add => binary "add"
  | .sub => binary "sub"
  | .mul => binary "mul"
  | .div => binary "sdiv"
  | .rem => binary "srem"
  | .neg => some (true, "sub " ++ typeText v.type ++ " 0, " ++ operand m x)
  | .fadd => binary "fadd"
  | .fsub => binary "fsub"
  | .fmul => binary "fmul"
  | .fdiv => binary "fdiv"
  | .frem => binary "frem"
  | .fneg => some (true, "fneg " ++ typeText v.type ++ " " ++ operand m x)
  | .not =>
    some (true, "xor " ++ typeText v.type ++ " " ++ operand m x ++ ", "
      ++ if v.type.bits == 1 then "true" else "-1")
  | .and => binary "and"
  | .or => binary "or"
  | .icmp =>
    some (true, binaryText m ("icmp " ++ Ssa.IntPredicate.nameOfCode v.auxInt) x.type x y)
  | .fcmp =>
    some (true, binaryText m ("fcmp " ++ Ssa.FloatPredicate.nameOfCode v.auxInt) x.type x y)
  | .select =>
    some (true, "select i1 " ++ operand m x ++ ", " ++ typeText v.type ++ " " ++ operand m y ++ ", "
      ++ typeText v.type ++ " " ++ operand m z)
  | .phi => some (true, "phi " ++ typeText v.type ++ " " ++ phiText m v args)
  | .call => some (!v.type.isVoid, callText m v args)
  | op => some (false, "; unhandled op " ++ op.name)

def valueLine? (v : ValueRef) : Option String :=
  let x := m.value v
  (instruction? m x).map fun (named, text) =>
    if named then "  " ++ valueName x ++ " = " ++ text else "  " ++ text

def terminatorLines (b : Block) : List String :=
  let label (s : Option BlockRef) : String := "label %" ++ blockLabel ((s.map m.block).getD default)
  let control : Option Value := (b.controls.head?.getD none).map m.value
  match b.kind with
  | .plain => if b.succs.isEmpty then ["  unreachable"] else ["  br " ++ label b.succs.head?]
  | .branch =>
    ["  br i1 " ++ operand m (control.getD default) ++ ", " ++ label b.succs[0]? ++ ", "
      ++ label b.succs[1]?]
  | .ret =>
    match control with
    | some v => ["  ret " ++ typedOperand m v]
    | none => ["  ret void"]
  | .invalid | .unknown => ["  ; unknown block kind", "  unreachable"]

def blockLines (r : BlockRef) : List String :=
  let b := m.block r
  (blockLabel b ++ ":") :: b.values.filterMap (valueLine? m) ++ terminatorLines m b

/-! ## Functions -/

/-- The lines of a function with a body. Blocks are set apart by empty lines. -/
def functionLines (f : Func) : List String :=
  let params := (paramTexts f.sig).zipWith (fun t i => t ++ " " ++ paramName i)
    ((List.range f.sig.params.length).map Int.ofNat)
  let head := "define " ++ typeText f.sig.result ++ " @" ++ f.name ++ "("
    ++ ", ".intercalate (params ++ variadicText f.sig) ++ ") \x7b"
  head :: ([""].intercalate (f.blocks.map (blockLines m))) ++ ["\x7d"]

def declarationLine (f : Func) : String :=
  "declare " ++ typeText f.sig.result ++ " @" ++ f.name ++ "("
    ++ ", ".intercalate (paramTexts f.sig ++ variadicText f.sig) ++ ")"
    ++ if (Target.external? f.name).any Target.External.neverReturns then " noreturn" else ""

/-! ## Modules -/

structure Header where
  buildId : String
  /-- The source file; the name of the module if empty. -/
  source : String := ""
  /-- The machine; the usual one if empty. -/
  target : String := ""
  /-- Its sizes and alignments; the usual ones if empty. -/
  dataLayout : String := ""
  deriving DecidableEq, Repr

/-- The first of two texts unless it is empty. -/
def orElse (s fallback : String) : String :=
  if s == "" then fallback else s

def Header.lines (h : Header) (m : Ssa.Module) : List String :=
  [ "; ModuleID = '" ++ m.name ++ "'",
    "; build-id: " ++ h.buildId,
    "source_filename = \"" ++ escape (orElse h.source m.name) ++ "\"",
    "target datalayout = \"" ++ orElse h.dataLayout Target.dataLayout ++ "\"",
    "target triple = \"" ++ orElse h.target Target.triple ++ "\"" ]

/-- A constant of bytes, with a zero byte behind them. -/
def constantLine (name : String) (data : List UInt8) : String :=
  "@" ++ name ++ " = private unnamed_addr constant [" ++ toString (data.length + 1)
    ++ " x i8] c\"" ++ escapeBytes data ++ "\\00\""

def globalLine (g : Ssa.Global) : String :=
  constantLine g.name g.data.toUTF8.toList

/-- Whether a block of a function holds an operation. -/
def usesOp (op : Ssa.Op) : Bool :=
  m.funcs.any fun f => f.blocks.any fun b => (m.block b).values.any fun v => (m.value v).op == op

/-- The heap functions that a module uses without declaring them. -/
def impliedExternals : List Target.External :=
  ([(Ssa.Op.malloc, Target.malloc), (.free, Target.free)].filter fun (op, e) =>
    (m.find? e.name).isNone && usesOp m op).map Prod.snd

/-- Lines with an empty line in front, unless there are none. -/
def setApart (lines : List String) : List String :=
  if lines.isEmpty then [] else "" :: lines

def moduleLines (h : Header) (m : Ssa.Module) : List String :=
  let (decls, defs) := m.funcs.toList.partition Func.isDeclaration
  h.lines m
    ++ setApart (m.globals.toList.map globalLine)
    ++ setApart (decls.map declarationLine ++ (impliedExternals m).map Target.External.render)
    ++ defs.flatMap fun f => "" :: functionLines m f

def render (h : Header) (m : Ssa.Module) : String :=
  String.join ((moduleLines h m).map (· ++ "\n"))

end SsaCompiler.Llvm
