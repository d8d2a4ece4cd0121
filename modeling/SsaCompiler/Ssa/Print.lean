import SsaCompiler.Number.FloatText
import SsaCompiler.Ssa.Module
import SsaCompiler.Text.Quoted

/-!
# Listings

The readable form of values, blocks, functions and modules.
-/

namespace SsaCompiler.Ssa.Module

variable (m : Module)

/-- A value as an operand: constants show what they are, other values their number. -/
def showValue (v : ValueRef) : String :=
  let x := m.value v
  match x.op with
  | .constInt =>
    if x.type.bits == 1 then (if x.auxInt != 0 then "true" else "false") else toString x.auxInt
  | .constFloat => Number.shortestText x.auxFloat
  | .constNull => "null"
  | .global =>
    match x.aux with
    | .global g => "@" ++ ((m.globals[g]?).elim "" Global.name)
    | _ => "@"
  | _ => "v" ++ toString x.number

def showValue? : Option ValueRef → String
  | some v => m.showValue v
  | none => "<nil>"

def showBlock (b : BlockRef) : String :=
  (m.block b).name

def showBlock? : Option BlockRef → String
  | some b => m.showBlock b
  | none => "<nil>"

/-- What an operation carries beside its arguments: a predicate, a field or another number. -/
def showAuxInt (x : Value) : String :=
  match x.op with
  | .icmp => " [" ++ IntPredicate.nameOfCode x.auxInt ++ "]"
  | .fcmp => " [" ++ FloatPredicate.nameOfCode x.auxInt ++ "]"
  | .fieldPtr => " [" ++ toString x.auxInt ++ "]"
  | _ => if x.auxInt == 0 then "" else " [" ++ toString x.auxInt ++ "]"

def showAux (x : Value) : String :=
  match x.aux with
  | .none => ""
  | .name s => if s == "" then "" else " \x7b" ++ s ++ "\x7d"
  | .callee f => " \x7b" ++ (m.func f).name ++ "\x7d"
  | .global g => " \x7b" ++ ((m.globals[g]?).elim "" Global.name) ++ "\x7d"

def showsNoResult (x : Value) : Bool :=
  x.op.isVoid || (x.op == .call && x.type.isVoid)

/-- A value with its operation, type and arguments. -/
def describeValue (v : ValueRef) : String :=
  let x := m.value v
  (if showsNoResult x then x.op.name
    else "v" ++ toString x.number ++ " = " ++ x.op.name ++ " <" ++ x.type.render ++ ">")
    ++ showAuxInt x ++ m.showAux x
    ++ String.join (x.args.map fun a => " " ++ m.showValue? a)

def showTerminator (b : Block) : String :=
  match b.kind with
  | .plain =>
    match b.succs with
    | s :: _ => "Plain -> " ++ m.showBlock s
    | [] => "Plain"
  | .branch =>
    match b.controls, b.succs with
    | c :: _, s :: t :: _ =>
      "If " ++ m.showValue? c ++ " -> " ++ m.showBlock s ++ " " ++ m.showBlock t
    | _, _ => "If (malformed)"
  | .ret =>
    match b.controls with
    | some c :: _ => "Return " ++ m.showValue c
    | _ => "Return"
  | .invalid | .unknown => "???"

def blockLines (r : BlockRef) : List String :=
  let b := m.block r
  let hint := if b.hint == "" then "" else " (" ++ b.hint ++ ")"
  let preds :=
    if b.preds.isEmpty then "" else " <- " ++ " ".intercalate (b.preds.map m.showBlock)
  ("  " ++ b.name ++ ":" ++ hint ++ preds)
    :: (b.values.map fun v => "    " ++ m.describeValue v)
    ++ ["    " ++ m.showTerminator b]

/-- A parameter of a function: its type, and its name if it has one. -/
def showParam (t : Ty) (v : Option ValueRef) : String :=
  match v.map fun v => (m.value v).aux with
  | some (.name s) => if s == "" then t.render else t.render ++ " %" ++ s
  | _ => t.render

def funcLines (r : FuncRef) : List String :=
  let f := m.func r
  let params := (List.range f.sig.params.length).map fun i =>
    m.showParam (f.sig.params.getD i default) f.params[i]?
  let params := params ++ if f.sig.isVariadic then ["..."] else []
  let head := (if f.isDeclaration then "declare " else "func ") ++ f.name
    ++ "(" ++ ", ".intercalate params ++ ") " ++ f.sig.result.render
  if f.isDeclaration then [head] else (head ++ ":") :: f.blocks.flatMap m.blockLines

def showFunc (f : FuncRef) : String :=
  String.join ((m.funcLines f).map (· ++ "\n"))

def render : String :=
  "module " ++ m.name ++ "\n"
    ++ String.join (m.globals.toList.map fun g =>
      "global @" ++ g.name ++ " = " ++ Text.quote g.data ++ "\n")
    ++ String.join ((List.range m.funcs.size).map fun f => "\n" ++ m.showFunc f)

end SsaCompiler.Ssa.Module
