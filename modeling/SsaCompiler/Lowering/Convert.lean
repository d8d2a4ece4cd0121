import SsaCompiler.Lowering.Monad

/-!
# Conversions and helper functions

Implicit and explicit conversions of values, and the two functions that a module gets when it needs
them: the check of an index and the power of integers.
-/

namespace SsaCompiler.Lowering

open SsaCompiler.Core (ExprTy)
open Ssa (ValueRef FuncRef)

def zero (t : Ssa.Ty) : Lowering ValueRef :=
  match t with
  | .int _ => build (.constInt t 0)
  | .float | .double => build (.constFloat t 0)
  | _ => build (.constNull t)

/-- A value of one primitive type as a value of another one. Unsigned integers are converted like
signed ones, and a number becomes true if it is not zero. -/
def castPrimitive (x : ValueRef) (p q : Primitive) : Lowering ValueRef := do
  let source := p.machineType
  let target := q.machineType
  if p == q then
    return x
  else if q.isBoolean then
    if p.isFloat then
      let z ← build (.constFloat source 0)
      build (.fcmp .one x z)
    else
      let z ← build (.constInt source 0)
      build (.icmp .ne x z)
  else if p.isFloat && q.isFloat then
    build (.convert (if source.bits < target.bits then .fpExt else .fpTrunc) x target)
  else if p.isFloat then
    build (.convert .fpToSi x target)
  else if q.isFloat then
    if p.isBoolean then
      let y ← build (.intCast x (.int 32))
      build (.convert .siToFp y target)
    else build (.convert .siToFp x target)
  else build (.intCast x target)

/-- Whether an array of constant size is taken for one without. -/
def decays (source target : Ty) : Bool :=
  source.isArray && target.isArray
    && (source.scalar?.any fun s => s.firstDim.isConstant)
    && !(target.scalar?.any fun s => s.firstDim.isConstant)

def coerce (x : ValueRef) (source target : ExprTy) : Lowering ValueRef := do
  if source.isNull then
    let t ← lift (·.exprType target)
    build (.constNull t)
  else
    match source.primitive?, target.primitive? with
    | some p, some q => castPrimitive x p q
    | _, _ =>
      if decays source.type target.type then
        let z ← build (.constInt (.int 32) 0)
        build (.elementPtr x z)
      else return x

/-! ## Helper functions -/

def defineHelper (name : String) (sig : Ssa.Ty) (params : List String)
    (body : ValueRef → ValueRef → Lowering Unit) : Lowering FuncRef := do
  let f ← build (.defineFunction name sig params)
  let fn := (← build .module).func f
  aside do
    build (.setInsertPoint (fn.entry.getD 0))
    body (fn.params.getD 0 0) (fn.params.getD 1 0)
  return f

/-- The helper of a given name, which is defined when it is first needed. -/
def helper (name : String) (sig : Ssa.Ty) (params : List String)
    (body : ValueRef → ValueRef → Lowering Unit) : Lowering FuncRef := do
  let m ← build .module
  match (m.find? name).filter fun f => !(m.func f).isDeclaration with
  | some f => return f
  | none => defineHelper name sig params body

/-- The function that checks an index: unless the index is at least zero and below the length, it
prints a message and ends the program. -/
def checkIndex : Lowering FuncRef :=
  helper Target.checkIndex (.func .void [.int 64, .int 64] false) ["index", "length"]
    fun index length => do
      let failed ← newBlock "fail"
      let passed ← newBlock "ok"
      let z ← build (.constInt (.int 64) 0)
      let below ← build (.icmp .slt index z)
      let beyond ← build (.icmp .sge index length)
      let bad ← build (.binary .or below beyond)
      build (.condBr bad failed passed)
      build (.setInsertPoint failed)
      let message ← build (.globalString Target.indexMessageName Target.indexMessage)
      let print ← printf
      let _ ← build (.call print [message, index, length])
      let finish ← exit
      let status ← build (.constInt (.int 32) Target.indexStatus)
      let _ ← build (.call finish [status])
      build .retVoid
      build (.setInsertPoint passed)
      build .retVoid

/-- The function that raises an integer to a power. Exponents below one give one. -/
def integerPower : Lowering FuncRef :=
  helper Target.integerPower (.func (.int 64) [.int 64, .int 64] false) ["base", "exp"]
    fun base exponent => do
      let one ← build (.constInt (.int 64) 1)
      let result ← build (.alloca (.int 64) "result")
      let count ← build (.alloca (.int 64) "n")
      build (.store one result)
      build (.store exponent count)
      let cond ← newBlock "cond"
      let body ← newBlock "body"
      let done ← newBlock "done"
      build (.br cond)
      build (.setInsertPoint cond)
      let n ← build (.load count)
      let z ← build (.constInt (.int 64) 0)
      let more ← build (.icmp .sgt n z)
      build (.condBr more body done)
      build (.setInsertPoint body)
      let r ← build (.load result)
      let product ← build (.binary .mul r base)
      build (.store product result)
      let n ← build (.load count)
      let next ← build (.binary .sub n one)
      build (.store next count)
      build (.br cond)
      build (.setInsertPoint done)
      let r ← build (.load result)
      build (.ret (some r))

end SsaCompiler.Lowering
