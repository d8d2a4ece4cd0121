import Mathlib.Algebra.Ring.Int.Defs
import Mathlib.Algebra.Ring.Nat
import SsaCompiler.Typing.Type

/-!
# What resolved programs mean

An evaluator for the part of the language that computes with integers and truth values: plain
variables, arithmetic in two's complement, calls, and the statements that direct the flow. Values
are integers; a truth value is zero or one. Operands and arguments are evaluated from left to right,
conjunctions, disjunctions and conditional expressions leave out what does not decide, and a variable
lives until the end of the block that declares it.

An evaluation has a budget, of which every expression and every statement takes a few units and a
call as many as the variables of the method need, and room for a number of objects, of which a call
takes one for each place that the method needs. It gives nothing when the budget, the room or the fuel
is used up, and nothing for programs outside of this part of the language. What it gives otherwise is
a result, or the reason why there is none: a division by zero, or too many calls within each other.
-/

namespace SsaCompiler

/-! ## Numbers of a primitive type -/

namespace Primitive

/-- Whether the type holds truth values or signed integers other than characters. -/
def isPlain : Primitive → Bool
  | .bool | .byte | .short | .int | .long => true
  | _ => false

/-- Whether an integer is a value of the type. Void has one value, for calls that give none. -/
def Holds (p : Primitive) (n : Int) : Prop :=
  match p with
  | .bool => n = 0 ∨ n = 1
  | .void => n = 0
  | p => -(2 ^ (p.bits - 1)) ≤ n ∧ n < 2 ^ (p.bits - 1)

/-- The integer that a word of the width of the type holds in place of `n`. -/
def reduce (p : Primitive) (n : Int) : Int :=
  n.bmod (2 ^ p.bits)

end Primitive

/-- Whether values of a type are truth values or integers. -/
def Ty.isPlain (t : Ty) : Bool :=
  t.primitive?.any Primitive.isPlain

namespace Core

/-- A value of one type as a value of another one: a number is true if it is not zero, and it is cut
to the width of a number type. -/
def converted (p q : Primitive) (n : Int) : Int :=
  if p = q then n
  else if q = .bool then if n = 0 then 0 else 1
  else q.reduce n

/-- A truth value as a number. -/
def ofBool (b : Bool) : Int :=
  if b then 1 else 0

/-- A comparison of numbers. -/
def compared (op : BinaryOp) (a b : Int) : Bool :=
  match op with
  | .ne => a != b
  | .lt => a < b
  | .le => a ≤ b
  | .gt => b < a
  | .ge => b ≤ a
  | _ => a == b

/-! ## Plain variables and operators -/

/-- Whether a variable is a plain local or parameter: a truth value or integer with storage of its
own. -/
def Var.isPlain (v : Var) : Bool :=
  v.type.type.isPlain && !v.reference && (v.alloc == .slot || v.alloc == .param)
    && v.path.isEmpty && v.dim.isNone

/-- The operators of arithmetic. -/
def isArithmetic : BinaryOp → Bool
  | .add | .sub | .mul | .div | .mod => true
  | _ => false

/-! ## Storage

A method takes storage for its variables and for the results of conjunctions, disjunctions and
conditional expressions when it is called. -/

mutual

/-- How many places an expression needs. -/
def Expr.places : Expr → Nat
  | .call _ args => placesOf args
  | .cast _ _ x | .neg _ x | .not x => x.places
  | .logical _ x y => 1 + x.places + y.places
  | .same _ x y | .compare _ _ _ x y | .arith _ _ _ x y => x.places + y.places
  | .selection _ c x y => 1 + c.places + x.places + y.places
  | _ => 0

/-- How many places expressions need. -/
def placesOf : List Expr → Nat
  | [] => 0
  | x :: xs => x.places + placesOf xs

end

mutual

/-- How many places a statement needs. -/
def Stmt.places : Stmt → Nat
  | .expr x => x.places
  | .declare _ => 1
  | .bind _ x => 1 + x.places
  | .assign _ x => x.places
  | .branch c body rest => c.places + placesOfStmts body + rest.places
  | .loop c body => c.places + placesOfStmts body
  | .ret x _ => x.places
  | _ => 0

/-- How many places statements need. -/
def placesOfStmts : List Stmt → Nat
  | [] => 0
  | s :: ss => s.places + placesOfStmts ss

/-- How many places are needed by what follows a first branch. -/
def Otherwise.places : Otherwise → Nat
  | .none => 0
  | .elseIf c body rest => c.places + placesOfStmts body + rest.places
  | .final body => placesOfStmts body

end

/-- How many places a method needs. -/
def Method.places (m : Method) : Nat :=
  m.vars.length + placesOfStmts m.body

/-- What a call of a method spends at its start: a unit for each place, and a further one for each
parameter. -/
def Method.price (m : Method) : Nat :=
  m.places + m.vars.length

/-! ## Evaluation -/

/-- Why an evaluation has no result. -/
inductive Trap where
  | divideByZero
  | stackOverflow
  deriving DecidableEq, Repr

/-- The variables of a method that have a value. -/
abbrev Locals := Nat → Option Int

/-- The variables with another value for one of them. -/
def Locals.set (l : Locals) (id : Nat) (n : Int) : Locals :=
  fun i => if i = id then some n else l i

/-- The state of an evaluation. -/
structure Store where
  /-- The variables of the active method. -/
  locals : Locals
  budget : Nat
  /-- How many objects there is still room for. -/
  room : Nat

/-- Steps of evaluation. -/
abbrev Eval (α : Type) : Type := ExceptT Trap (StateT Store Option) α

namespace Eval

variable {α : Type}

/-- There is no meaning, or the budget is used up. -/
def stuck : Eval α :=
  fun _ => none

/-- Takes from the budget. -/
def spend (n : Nat) : Eval Unit := fun s =>
  if n ≤ s.budget then some (.ok (), { s with budget := s.budget - n }) else none

/-- Takes room for objects. -/
def occupy (n : Nat) : Eval Unit := fun s =>
  if n ≤ s.room then some (.ok (), { s with room := s.room - n }) else none

/-- The value of a variable. -/
def read (v : Var) : Eval Int := fun s =>
  (s.locals v.id).map fun n => (.ok n, s)

/-- Gives a variable a value. -/
def write (v : Var) (n : Int) : Eval Unit :=
  modify fun s => { s with locals := s.locals.set v.id n }

/-- Gives another value to a variable that has one. -/
def update (v : Var) (n : Int) : Eval Unit := do
  let _ ← read v
  write v n

/-- A value where another type is expected. -/
def coerce (source target : ExprTy) (n : Int) : Eval Int :=
  match source.primitive?, target.primitive? with
  | some p, some q => return converted p q n
  | _, _ => stuck

/-- An arithmetic operation in the words of a type. -/
def arith (op : BinaryOp) (p : Primitive) (a b : Int) : Eval Int :=
  match op with
  | .add => return p.reduce (a + b)
  | .sub => return p.reduce (a - b)
  | .mul => return p.reduce (a * b)
  | .div => if b = 0 then throw .divideByZero else return p.reduce (a.tdiv b)
  | .mod => if b = 0 then throw .divideByZero else return p.reduce (a.tmod b)
  | _ => stuck

/-- Goes through a block: the variables that it declares are gone behind it. -/
def inBlock (x : Eval α) : Eval α := do
  let outer := (← get).locals
  let a ← x
  modify fun s => { s with locals := fun i => if (outer i).isSome then s.locals i else none }
  return a

/-- Evaluates the body of a method with other variables. -/
def within (l : Locals) (x : Eval α) : Eval α := do
  let outer := (← get).locals
  modify fun s => { s with locals := l }
  let a ← x
  modify fun s => { s with locals := outer }
  return a

end Eval

/-- How much of the budget an expression or a statement takes for itself. -/
def nodePrice : Nat := 5

/-- The variables of parameters with the values of arguments. -/
def paramLocals (args : List Int) : List Var → Locals → Locals
  | [], l => l
  | v :: vs, l => paramLocals args vs (l.set v.id (args.getD v.index.toNat 0))

section

variable (methods : List Method)

mutual

/-- The value of an expression. `depth` is the number of methods that may still become active. -/
def evalExpr : (fuel : Nat) → (depth : Nat) → Expr → Eval Int
  | 0, _, _ => Eval.stuck
  | fuel + 1, depth, e => do
    Eval.spend nodePrice
    match e with
    | .int _ n => return n
    | .var v => Eval.read v
    | .call f args =>
      let xs ← evalArgs fuel depth args f.params
      match methods.find? fun m => m.origin.same f.method with
      | some m => evalCall fuel depth m xs
      | none => Eval.stuck
    | .cast p q x => return converted p q (← evalExpr fuel depth x)
    | .neg p x => return p.reduce (-(← evalExpr fuel depth x))
    | .not x => return ofBool ((← evalExpr fuel depth x) == 0)
    | .step v p up after =>
      let old ← Eval.read v
      let next := p.reduce (if up then old + 1 else old - 1)
      Eval.update v next
      return if after then old else next
    | .logical op x y =>
      let a ← evalExpr fuel depth x
      if (a != 0) == (op == .and) then evalExpr fuel depth y else return a
    | .same op x y =>
      let a ← evalExpr fuel depth x
      let b ← evalExpr fuel depth y
      return ofBool (compared op a b)
    | .compare op p q x y =>
      let a ← evalExpr fuel depth x
      let b ← evalExpr fuel depth y
      return ofBool (compared op (converted p (p.promote q) a) (converted q (p.promote q) b))
    | .arith op p q x y =>
      let a ← evalExpr fuel depth x
      let b ← evalExpr fuel depth y
      Eval.arith op (p.promote q) (converted p (p.promote q) a) (converted q (p.promote q) b)
    | .selection t c x y =>
      let a ← evalExpr fuel depth c
      if a ≠ 0 then Eval.coerce x.type t (← evalExpr fuel depth x)
      else Eval.coerce y.type t (← evalExpr fuel depth y)
    | _ => Eval.stuck

/-- The values of arguments where the parameter types are expected. -/
def evalArgs : (fuel : Nat) → (depth : Nat) → List Expr → List Ty → Eval (List Int)
  | 0, _, _, _ => Eval.stuck
  | fuel + 1, depth, x :: xs, t :: ts => do
    let a ← evalExpr fuel depth x
    let b ← Eval.coerce x.type (.val t) a
    return b :: (← evalArgs fuel depth xs ts)
  | _ + 1, _, _, _ => return []

/-- The result of a method; zero if there is none. -/
def evalCall : (fuel : Nat) → (depth : Nat) → Method → List Int → Eval Int
  | 0, _, _, _ => Eval.stuck
  | _ + 1, 0, _, _ => throw .stackOverflow
  | fuel + 1, depth + 1, m, args => do
    Eval.spend m.price
    Eval.occupy m.places
    let r ← Eval.within (paramLocals args m.vars fun _ => none) (evalStmts fuel depth m.body)
    return r.getD 0

/-- Carries a statement out. If it returns from the method, the result is what it returns. -/
def evalStmt : (fuel : Nat) → (depth : Nat) → Stmt → Eval (Option Int)
  | 0, _, _ => Eval.stuck
  | fuel + 1, depth, s => do
    Eval.spend nodePrice
    match s with
    | .expr x =>
      let _ ← evalExpr fuel depth x
      return none
    | .declare v =>
      Eval.write v 0
      return none
    | .bind v x =>
      let a ← evalExpr fuel depth x
      Eval.write v (← Eval.coerce x.type v.type a)
      return none
    | .assign v x =>
      let a ← evalExpr fuel depth x
      Eval.update v (← Eval.coerce x.type v.type a)
      return none
    | .branch c body rest =>
      let a ← evalExpr fuel depth c
      if a ≠ 0 then Eval.inBlock (evalStmts fuel depth body)
      else evalOtherwise fuel depth rest
    | .loop c body => evalLoop fuel depth c body
    | .retVoid => return some 0
    | .ret x t =>
      let a ← evalExpr fuel depth x
      return some (← Eval.coerce x.type (.val t) a)
    | _ => Eval.stuck

/-- Carries statements out until one of them returns. -/
def evalStmts : (fuel : Nat) → (depth : Nat) → List Stmt → Eval (Option Int)
  | 0, _, _ => Eval.stuck
  | _ + 1, _, [] => return none
  | fuel + 1, depth, s :: ss => do
    match ← evalStmt fuel depth s with
    | some a => return some a
    | none => evalStmts fuel depth ss

/-- Carries out what follows a first branch that was not taken. -/
def evalOtherwise : (fuel : Nat) → (depth : Nat) → Otherwise → Eval (Option Int)
  | 0, _, _ => Eval.stuck
  | _ + 1, _, .none => return none
  | fuel + 1, depth, .elseIf c body rest => do
    let a ← evalExpr fuel depth c
    if a ≠ 0 then Eval.inBlock (evalStmts fuel depth body)
    else evalOtherwise fuel depth rest
  | fuel + 1, depth, .final body => Eval.inBlock (evalStmts fuel depth body)

/-- Carries a loop out. -/
def evalLoop : (fuel : Nat) → (depth : Nat) → Expr → List Stmt → Eval (Option Int)
  | 0, _, _, _ => Eval.stuck
  | fuel + 1, depth, c, body => do
    let a ← evalExpr fuel depth c
    if a ≠ 0 then
      match ← Eval.inBlock (evalStmts fuel depth body) with
      | some r => return some r
      | none => evalLoop fuel depth c body
    else return none

end

end

end Core

end SsaCompiler
