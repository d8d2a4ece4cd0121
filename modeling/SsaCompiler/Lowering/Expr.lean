import SsaCompiler.Lowering.Convert

/-!
# Lowering of expressions

The value of an expression is computed by values that are appended to the current block. Operands
are computed from left to right. Expressions that choose a way (conjunctions, conditional
expressions) end the current block and go on in a new one.

The default values of fields are computed anew for every object. They are expressions that may make
objects themselves, so how deep they may nest is bounded.
-/

namespace SsaCompiler.Lowering

open SsaCompiler.Core (ExprTy Var Step)
open Ssa (ValueRef)

variable (dv : Defaults)

/-- The computation of a value of a type. -/
structure Operand where
  type : ExprTy
  value : Lowering ValueRef

/-- The computation of a value where a type is expected. -/
def Operand.as (o : Operand) (target : ExprTy) : Lowering ValueRef := do
  coerce (← o.value) o.type target

/-- Default values of fields, by the name of the class and the place of the field. -/
abbrev Defaults := String → Nat → Option Operand

/-! ## Objects -/

/-- A new cell on the stack that holds a value, or zero. -/
def newCell (s : Scalar) (init : Option Operand) : Lowering ValueRef := do
  let t ← lift (·.machineType (.scalar s))
  let cell ← build (.alloca t "new")
  let x ←
    match init with
    | some o => o.as (.ofScalar s)
    | none => zero t
  build (.store x cell)
  return cell

/-- What a field of a new object holds: an argument, the default value if the class is of the own
package, or zero. -/
def fieldInit (c : ClassAt) (f : FieldDef) (arg : Option Operand)
    (type : Scalar) : Lowering ValueRef := do
  let default? := if c.owner == .own && f.value.isSome then dv c.cls.name f.index else none
  match arg <|> default? with
  | some o => o.as (.ofScalar type)
  | none => do
    let t ← lift (·.machineType (.scalar type))
    zero t

/-- Fills the fields of a new object. Arrays are left as they are. -/
def fillFields (dv : Defaults) (c : ClassAt) (obj : ValueRef) :
    List FieldDef → List Operand → Lowering Unit
  | [], _ => return ()
  | f :: fs, args => do
    if !f.type.isArray then
      let env ← read
      let x ← fieldInit dv c f args.head? (Typing.fieldType env c f)
      let p ← build (.fieldPtr obj f.index)
      build (.store x p)
    fillFields dv c obj fs args.tail

def newObject (c : ClassAt) (args : List Operand) : Lowering ValueRef := do
  declareHeap
  let t ← lift (·.classStruct c)
  let obj ← build (.malloc t)
  fillFields dv c obj c.cls.fields args
  return obj

def malloc (s : Scalar) : Lowering ValueRef := do
  declareHeap
  let t ← lift fun env =>
    match env.classOf? (.scalar s) with
    | some c => env.classStruct c
    | none => env.storageType s
  build (.malloc t)

def fieldAddress (v : Var) (path : List Step) : Lowering ValueRef := do
  let rec go (obj : ValueRef) : List Step → Lowering ValueRef
    | [] => return obj
    | [f] => build (.fieldPtr obj f.index)
    | f :: fs => do
      let p ← build (.fieldPtr obj f.index)
      let next ← build (.load p)
      go next fs
  go (← readVar v) path

/-! ## Arrays -/

/-- A new array on the stack, and its length if the type does not tell it. -/
def newArray (s : Scalar) (size : Operand) : Lowering (ValueRef × Option ValueRef) := do
  if s.firstDim.size?.isSome then
    let t ← lift (·.storageType s)
    return (← build (.alloca t "array"), none)
  else
    let n ← size.value
    let t ← lift (·.storageType s.element)
    let p ← build (.allocaMany t n "array")
    let length ← build (.intCast n (.int 32))
    return (p, some length)

def arrayLength (x : Core.Expr) : Lowering (Option ValueRef) := do
  match x.type.type.scalar?.bind fun s => s.firstDim.size? with
  | some n => return some (← build (.constInt (.int 32) n))
  | none =>
    match x with
    | .var v => return (← storageOf v).length
    | _ => return none

/-- The address of an element. The index is checked if its value is not known and the length is. -/
def elementAddress (x : Core.Expr) (checked : Bool) (array index : Lowering ValueRef) :
    Lowering ValueRef := do
  let base ← array
  let i ← index
  if !checked then
    match ← arrayLength x with
    | some n =>
      let f ← checkIndex
      let i ← build (.intCast i (.int 64))
      let n ← build (.intCast n (.int 64))
      let _ ← build (.call f [i, n])
    | none => pure ()
  build (.elementPtr base i)

/-- Stores operands into the elements of an array from place `i` on. -/
def fillElements (p : ValueRef) (elem : Scalar) : (i : Nat) → List Operand → Lowering Unit
  | _, [] => return ()
  | i, o :: os => do
    let x ← o.as (.ofScalar elem)
    let k ← build (.constInt (.int 32) i)
    let q ← build (.elementPtr p k)
    build (.store x q)
    fillElements p elem (i + 1) os

/-- Stores operands into the members of a tuple from place `i` on. -/
def fillMembers (p : ValueRef) : (i : Nat) → List Operand → Lowering Unit
  | _, [] => return ()
  | i, o :: os => do
    let x ← o.value
    let q ← build (.fieldPtr p i)
    build (.store x q)
    fillMembers p (i + 1) os

/-! ## Operators -/

def intPredicate : BinaryOp → Ssa.IntPredicate
  | .ne => .ne
  | .lt => .slt
  | .le => .sle
  | .gt => .sgt
  | .ge => .sge
  | _ => .eq

/-- The comparison of floating-point numbers that an operator stands for. -/
def floatPredicate : BinaryOp → Ssa.FloatPredicate
  | .ne => .one
  | .lt => .olt
  | .le => .ole
  | .gt => .ogt
  | .ge => .oge
  | _ => .oeq

/-- The operation on integers and the one on floating-point numbers that an operator stands for. -/
def arithOps? : BinaryOp → Option (Ssa.Op × Ssa.Op)
  | .add => some (.add, .fadd)
  | .sub => some (.sub, .fsub)
  | .mul => some (.mul, .fmul)
  | .div => some (.div, .fdiv)
  | .mod => some (.rem, .frem)
  | _ => none

/-- Two numbers of the type in which an operation on them is carried out. -/
def promoted (p q : Primitive) (x y : Lowering ValueRef) : Lowering (ValueRef × ValueRef) := do
  let v ← castPrimitive (← x) p (p.promote q)
  let w ← castPrimitive (← y) q (p.promote q)
  return (v, w)

def compare (op : BinaryOp) (p q : Primitive) (x y : Lowering ValueRef) : Lowering ValueRef := do
  let (v, w) ← promoted p q x y
  if (p.promote q).isFloat then build (.fcmp (floatPredicate op) v w)
  else build (.icmp (intPredicate op) v w)

def arith (op : BinaryOp) (p q : Primitive) (x y : Lowering ValueRef) : Lowering ValueRef := do
  let (v, w) ← promoted p q x y
  match arithOps? op with
  | some (onInts, onFloats) =>
    build (.binary (if (p.promote q).isFloat then onFloats else onInts) v w)
  | none =>
    if op == .pow then
      let f ← integerPower
      let a ← build (.intCast v (.int 64))
      let b ← build (.intCast w (.int 64))
      let r ← build (.call f [a, b])
      let t ← build (.typeOf v)
      build (.intCast r t)
    else fail (.noOperation op)

def same (op : BinaryOp) (x y : Operand) : Lowering ValueRef := do
  let v ← x.value
  let w ← y.value
  let v ← if x.type.isNull then do build (.constNull (← build (.typeOf w))) else pure v
  let w ← if y.type.isNull then do build (.constNull (← build (.typeOf v))) else pure w
  build (.icmp (intPredicate op) v w)

/-- The last of the ways to a value that is kept in a slot: from block `b` on, up to the block where
the ways meet. -/
def lastWay (x : Lowering ValueRef) (slot : ValueRef) (b after : Ssa.BlockRef) : Lowering ValueRef := do
  build (.setInsertPoint b)
  let v ← x
  build (.store v slot)
  build (.br after)
  build (.setInsertPoint after)
  build (.load slot)

/-- A conjunction or disjunction. The second operand is computed only if it decides. -/
def logical (op : BinaryOp) (x y : Lowering ValueRef) : Lowering ValueRef := do
  let slot ← build (.alloca (.int 1) "cond")
  let v ← x
  build (.store v slot)
  let second ← newBlock "logic.rhs"
  let after ← newBlock "logic.end"
  if op == .and then build (.condBr v second after) else build (.condBr v after second)
  lastWay y slot second after

def selection (t : ExprTy) (cond : Lowering ValueRef) (x y : Operand) : Lowering ValueRef := do
  let type ← lift (·.exprType t)
  let slot ← build (.alloca type "sel")
  let yes ← newBlock "sel.then"
  let no ← newBlock "sel.else"
  let after ← newBlock "sel.end"
  let c ← cond
  build (.condBr c yes no)
  build (.setInsertPoint yes)
  let v ← x.as t
  build (.store v slot)
  build (.br after)
  lastWay (y.as t) slot no after

def step (v : Var) (up after : Bool) : Lowering ValueRef := do
  let s ← storageOf v
  let old ← readStorage s
  let one ← build (.constInt (← build (.typeOf old)) 1)
  let next ← build (.binary .add old one)
  let next ← if up then pure next else build (.binary .sub old one)
  build (.store next s.addr)
  return if after then old else next

/-! ## Calls -/

/-- Arguments where the parameter types are expected. -/
def arguments : List Operand → List Ty → Lowering (List ValueRef)
  | o :: os, t :: ts => do
    let x ← o.as (.val t)
    return x :: (← arguments os ts)
  | _, _ => return []

/-- How a value is printed: its conversion, and the value that is passed. -/
def printed (o : Operand) : Lowering (String × ValueRef) := do
  let x ← o.value
  match o.type.primitive? with
  | none => return ("%p", x)
  | some .string => return ("%s", x)
  | some .bool =>
    let yes ← text "true"
    let no ← text "false"
    return ("%s", ← build (.select x yes no))
  | some .char => return ("%c", ← build (.intCast x (.int 32)))
  | some .long => return ("%ld", x)
  | some .ulong => return ("%lu", x)
  | some .float => return ("%f", ← build (.convert .fpExt x .double))
  | some .double => return ("%f", x)
  | some p => return (if p.isUnsigned then "%u" else "%d", ← build (.intCast x (.int 32)))

def printedAll : List Operand → Lowering (List (String × ValueRef))
  | [] => return []
  | o :: os => do
    let x ← printed o
    return x :: (← printedAll os)

/-- Prints values on one line, with blanks between them. -/
def println (args : List Operand) : Lowering Unit := do
  let xs ← printedAll args
  let format ← text (" ".intercalate (xs.map Prod.fst) ++ "\n")
  let f ← printf
  let _ ← build (.call f (format :: xs.map Prod.snd))

/-! ## Expressions -/

/-- The value of a new cell on the stack, given its address. -/
def loadCell (type : ExprTy) (p : ValueRef) : Lowering ValueRef := do
  if (← read).isCell type.type then build (.load p) else return p

mutual

def expr (dv : Defaults) : Core.Expr → Lowering ValueRef
  | .text s => text s
  | .null => build (.constNull bytePtr)
  | .int p n => build (.constInt p.machineType n)
  | .float p bits => build (.constFloat p.machineType bits)
  | .var v => readVar v
  | .field v path => do
    let p ← fieldAddress v path
    if path.getLast?.any fun f => f.type.isArray then return p else build (.load p)
  | .call f args => do
    let r ← function f.owner f.key f.method
    let xs ← arguments (operands dv args) f.params
    build (.call r xs)
  | .println args => do
    println (operands dv args)
    fail .noValue
  | .newZero s => do
    loadCell (.ofScalar (s.withRef .none)) (← newCell s none)
  | .newCell s x => do
    loadCell (.ofScalar (s.withRef .none)) (← newCell s (some ⟨x.type, expr dv x⟩))
  | .newObject s c args => do
    loadCell (.ofScalar (s.withRef .none)) (← newObject dv c (operands dv args))
  | .malloc s => do
    loadCell (.ofScalar s) (← malloc s)
  | .sizeof t => do
    let u ← lift (·.sizeType t.type)
    build (.constInt (.int 64) u.size)
  | .tuple members => do
    let t ← lift (·.tupleStruct (Core.Expr.types members))
    let p ← build (.alloca t "tuple")
    fillMembers p 0 (operands dv members)
    return p
  | .cast p q x => do
    castPrimitive (← expr dv x) p q
  | .neg p x => do
    let v ← expr dv x
    build (.unary (if p.isFloat then .fneg else .neg) v)
  | .not x => do
    let v ← expr dv x
    build (.unary .not v)
  | .step v _ up after => step v up after
  | .logical op x y => logical op (expr dv x) (expr dv y)
  | .same op x y => same op ⟨x.type, expr dv x⟩ ⟨y.type, expr dv y⟩
  | .compare op p q x y => compare op p q (expr dv x) (expr dv y)
  | .arith op p q x y => arith op p q (expr dv x) (expr dv y)
  | .refTo v _ => do
    return (← storageOf v).addr
  | .deref v _ => do
    let p ← readVar v
    build (.load p)
  | .index x i checked elem => do
    let p ← elementAddress x checked (expr dv x) (expr dv i)
    if (Ty.scalar elem).isArray then return p else build (.load p)
  | .arrayLiteral s elems => do
    let t ← lift (·.storageType s)
    let p ← build (.alloca t "array")
    fillElements p s.element 0 (operands dv elems)
    return p
  | .arrayAlloc s size => do
    return (← newArray s ⟨size.type, expr dv size⟩).1
  | .selection t c x y => selection t (expr dv c) ⟨x.type, expr dv x⟩ ⟨y.type, expr dv y⟩

def operands (dv : Defaults) : List Core.Expr → List Operand
  | [] => []
  | x :: xs => ⟨x.type, expr dv x⟩ :: operands dv xs

end

def operand (x : Core.Expr) : Operand :=
  ⟨x.type, expr dv x⟩

/-- Carries out an expression whose value, if it has one, is not used. -/
def effect : Core.Expr → Lowering Unit
  | .println args => println (operands dv args)
  | x => do
    let _ ← expr dv x

/-- Computes the address of the object that an expression makes. -/
def address : Core.Expr → Lowering ValueRef
  | .newZero s => newCell s none
  | .newCell s x => newCell s (some (operand dv x))
  | .newObject _ c args => newObject dv c (operands dv args)
  | .malloc s => malloc s
  | _ => fail .noAddress

/-- The default values of fields. They may make objects whose fields have default values up to
`depth` times. -/
def defaultsWithin (values : List Core.DefaultValue) : (depth : Nat) → Defaults
  | 0 => fun cls i =>
    (values.find? fun d => d.cls == cls && d.index == i).map fun d =>
      ⟨d.value.type, fail .endlessDefaults⟩
  | depth + 1 => fun cls i =>
    (values.find? fun d => d.cls == cls && d.index == i).map fun d =>
      operand (defaultsWithin values depth) d.value

end SsaCompiler.Lowering
