import SsaCompiler.Ssa.Dominance
import SsaCompiler.Ssa.Print

/-!
# Verification

Checks that a function is well formed: its blocks and edges fit together, every value has operands
of the right number and types, and (with dominance) every value is computed before it is used. All
violations are listed in the order in which they are found.
-/

namespace SsaCompiler.Ssa.Module

variable (m : Module) (f : Func) (b : BlockRef)

/-! ## Operands -/

/-- A complaint about the number of arguments, if it is not `n`. -/
def wrongCount? (args : List Value) (n : Nat) : Option String :=
  if args.length == n then none
  else some ("has " ++ toString args.length ++ " args, want " ++ toString n)

/-- A complaint unless a condition holds. -/
def unless? (ok : Bool) (complaint : String) : Option String :=
  if ok then none else some complaint

/-- A complaint about the first argument of a call whose type is not that of the parameter. -/
def wrongArg? (callee : String) : (i : Nat) → List Value → List Ty → Option String
  | i, a :: as, p :: ps =>
    if a.type == p then wrongArg? callee (i + 1) as ps
    else some ("call to " ++ callee ++ ": arg " ++ toString i ++ " has type " ++ a.type.render
      ++ ", want " ++ p.render)
  | _, _, _ => none

def wrongCall? (args : List Value) : Option String :=
  let params := f.sig.params
  if args.length < params.length || (!f.sig.isVariadic && args.length != params.length) then
    some ("call to " ++ f.name ++ " with " ++ toString args.length ++ " args, want "
      ++ toString params.length)
  else wrongArg? f.name 0 args params

/-- A complaint about the operands of a value that has the arguments `args`. -/
def wrongOperands? (v : Value) (args : List Value) : Option String :=
  match v.op, args with
  | .load, [p] =>
    unless? (p.type == .pointer v.type)
      ("load of " ++ v.type.render ++ " from " ++ p.type.render)
  | .load, _ => wrongCount? args 1
  | .store, [p, x] =>
    unless? (p.type == .pointer x.type)
      ("store of " ++ x.type.render ++ " to " ++ p.type.render)
  | .store, _ => wrongCount? args 2
  | .free, [p] | .fieldPtr, [p] =>
    unless? p.type.isPointer ("operand has type " ++ p.type.render ++ ", want pointer")
  | .free, _ | .fieldPtr, _ => wrongCount? args 1
  | .elemPtr, [p, i] =>
    unless? (p.type.isPointer && i.type.isInt)
      ("index " ++ i.type.render ++ " into " ++ p.type.render)
  | .elemPtr, _ => wrongCount? args 2
  | .add, [x, y] | .sub, [x, y] | .mul, [x, y] | .div, [x, y] | .rem, [x, y] | .and, [x, y]
  | .or, [x, y] =>
    unless? (x.type == v.type && y.type == v.type && v.type.isInt)
      ("operands " ++ x.type.render ++ ", " ++ y.type.render ++ " for result " ++ v.type.render)
  | .fadd, [x, y] | .fsub, [x, y] | .fmul, [x, y] | .fdiv, [x, y] | .frem, [x, y] =>
    unless? (x.type == v.type && y.type == v.type && v.type.isFloat)
      ("operands " ++ x.type.render ++ ", " ++ y.type.render ++ " for result " ++ v.type.render)
  | .add, _ | .sub, _ | .mul, _ | .div, _ | .rem, _ | .and, _ | .or, _ | .fadd, _ | .fsub, _
  | .fmul, _ | .fdiv, _ | .frem, _ => wrongCount? args 2
  | .icmp, [x, y] | .fcmp, [x, y] =>
    unless? (x.type == y.type) ("compares " ++ x.type.render ++ " with " ++ y.type.render)
  | .icmp, _ | .fcmp, _ => wrongCount? args 2
  | .select, [_, x, y] =>
    unless? (x.type == y.type && x.type == v.type)
      ("selects between " ++ x.type.render ++ " and " ++ y.type.render)
  | .select, _ => wrongCount? args 3
  | .call, _ =>
    match v.aux with
    | .callee f => wrongCall? (m.func f) args
    | _ => some "call without callee"
  | _, _ => none

/-! ## Structure -/

def places {α : Type} (xs : List α) : List (Nat × α) :=
  (List.range xs.length).zip xs

def valueComplaints (name : String) (b : BlockRef) (v : ValueRef) : List String :=
  let x := m.value v
  let place := "func " ++ name ++ ", " ++ m.showBlock b ++ ", " ++ m.showValue v
  let placeOp := place ++ " (" ++ x.op.name ++ "): "
  let preds := (m.block b).preds.length
  (if x.block == some b then []
    else
      [place ++ ": value Block pointer is " ++ m.showBlock? x.block ++ ", want " ++ m.showBlock b])
  ++ (if x.type.isVoid && !x.op.isVoid && x.op != .call then
      [placeOp ++ "non-void value has void Type"] else [])
  ++ ((places x.args).filterMap fun (i, a) =>
      if a.isNone then some (place ++ ": arg[" ++ toString i ++ "] is nil") else none)
  ++ (if x.op == .phi && x.args.length != preds then
      [place ++ ": phi has " ++ toString x.args.length ++ " args but block has " ++ toString preds
        ++ " preds"] else [])
  ++ (if x.args.all Option.isSome then
      ((m.wrongOperands? x ((x.args.filterMap id).map m.value)).map (placeOp ++ ·)).toList else [])

def terminatorComplaints : List String :=
  let x := m.block b
  let place := "func " ++ f.name ++ ", " ++ x.name
  let succs := x.succs.length
  match x.kind with
  | .plain =>
    if succs == 1 then [] else [place ++ ": plain block has " ++ toString succs ++ " succs, want 1"]
  | .branch =>
    (match x.controls with
    | [some c] =>
      if m.typeOf c == .int 1 then []
      else [place ++ ": if control " ++ m.showValue c ++ " has type " ++ (m.typeOf c).render
        ++ ", want i1"]
    | [none] => []
    | cs => [place ++ ": if block has " ++ toString cs.length ++ " controls, want 1"])
    ++ (if succs == 2 then []
      else [place ++ ": if block has " ++ toString succs ++ " succs, want 2"])
  | .ret =>
    (if succs == 0 then []
      else [place ++ ": return block has " ++ toString succs ++ " succs, want 0"])
    ++ (match x.controls with
      | some c :: _ =>
        if m.typeOf c == f.sig.result then []
        else [place ++ ": return value has type " ++ (m.typeOf c).render ++ ", want "
          ++ f.sig.result.render]
      | _ =>
        if f.sig.result.isVoid then []
        else [place ++ ": missing return value of type " ++ f.sig.result.render])
  | .invalid | .unknown => []

def edgeComplaints : List String :=
  let x := m.block b
  let place := "func " ++ f.name ++ ", " ++ x.name ++ ": "
  (x.succs.filterMap fun s =>
    if !f.blocks.contains s then
      some (place ++ "successor " ++ m.showBlock s ++ " not in function")
    else if !(m.block s).preds.contains b then
      some (place ++ "successor " ++ m.showBlock s ++ " does not have " ++ x.name
        ++ " as predecessor")
    else none)
  ++ (x.preds.filterMap fun p =>
    if !f.blocks.contains p then
      some (place ++ "predecessor " ++ m.showBlock p ++ " not in function")
    else if !(m.block p).succs.contains b then
      some (place ++ "predecessor " ++ m.showBlock p ++ " does not have " ++ x.name
        ++ " as successor")
    else none)

def blockComplaints (r : FuncRef) (f : Func) (b : BlockRef) : List String :=
  let x := m.block b
  let place := "func " ++ f.name ++ ", " ++ x.name ++ ": "
  (if x.kind == .invalid then [place ++ "block has invalid kind"] else [])
  ++ (if x.func == r then [] else [place ++ "block Func pointer mismatch"])
  ++ x.values.flatMap (m.valueComplaints f.name b)
  ++ m.terminatorComplaints f b
  ++ m.edgeComplaints f b
  ++ ((places x.controls).filterMap fun (i, c) =>
    if c.isNone && x.kind != .ret then
      some (place ++ "control[" ++ toString i ++ "] is nil") else none)

/-- Complaints about values of other functions that a block refers to. -/
def foreignComplaints (inFunc : ValueRef → Bool) (b : BlockRef) :
    List String :=
  let x := m.block b
  let place := "func " ++ f.name ++ ", " ++ x.name
  let missing (v : Option ValueRef) : Bool := v.any fun v => !inFunc v
  (x.values.flatMap fun v => (places (m.value v).args).filterMap fun (i, a) =>
    if missing a then
      some (place ++ ", " ++ m.showValue v ++ ": arg[" ++ toString i ++ "] (" ++ m.showValue? a
        ++ ") not found in function")
    else none)
  ++ ((places x.controls).filterMap fun (i, c) =>
    if missing c then
      some (place ++ ": control[" ++ toString i ++ "] (" ++ m.showValue? c
        ++ ") not found in function")
    else none)

/-- All complaints about the structure of a function; declarations are always well formed. -/
def verify (r : FuncRef) : List String :=
  let f := m.func r
  match f.entry with
  | none => []
  | some entry =>
    if f.blocks.isEmpty then ["func " ++ f.name ++ ": no blocks"]
    else
      let preds := (m.block entry).preds.length
      let values := f.blocks.flatMap fun b => (m.block b).values
      let marks := values.foldl (fun (a : Array Bool) v => a.setIfInBounds v true)
        (Array.replicate m.values.size false)
      let inFunc (v : ValueRef) : Bool :=
        marks.getD v false || ((m.value v).block.isNone && (m.value v).op.isConst)
      (if f.blocks.head? == some entry then []
        else ["func " ++ f.name ++ ": Blocks[0] is not the entry block"])
      ++ (if preds == 0 then []
        else ["func " ++ f.name ++ ": entry block " ++ m.showBlock entry ++ " has "
          ++ toString preds
          ++ " predecessors, want 0"])
      ++ f.blocks.flatMap (m.blockComplaints r f)
      ++ f.blocks.flatMap (m.foreignComplaints f inFunc)

/-! ## Dominance -/

def complaintText (complaints : List String) : String :=
  "SSA verification failed:\n  " ++ "\n  ".intercalate complaints

end SsaCompiler.Ssa.Module
