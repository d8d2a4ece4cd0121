import Mathlib.Data.List.Forall2
import SsaCompiler.Typing.Literal
import SsaCompiler.Typing.Monad

/-!
# Resolved trees

How the tree of a plain unit and its resolved tree belong together, in rules that do not mention
typing. Operators and the order of statements are taken over. A name stands for the innermost
variable of that name, a call for a method of that name whose parameters have the types of the
arguments, and statements see the variables that are declared in front of them.
-/

namespace SsaCompiler

open Core (ExprTy Var)
open Typing (find?)

/-- The operator and the operands of a resolved expression with two operands. -/
def Core.Expr.binary? : Core.Expr → Option (BinaryOp × Core.Expr × Core.Expr)
  | .logical op x y | .same op x y | .compare op _ _ x y | .arith op _ _ x y => some (op, x, y)
  | _ => none

/-- What an expression stands for if the variables `S` are in scope. -/
inductive Expr.Resolves (S : List (List Var)) : Expr → Core.Expr → Prop
  | literal : Literal.read? kind text = some (t, some x) → Resolves S (.literal m kind text) x
  | accessor {q : QualName} : find? q.direct S = some v → Resolves S (.accessor m q) (.var v)
  | group : Resolves S e x → Resolves S (.group m e) x
  | cast : (Ty.scalar s).primitive? = some p → Resolves S e x →
      Resolves S (.cast m s e) (.cast q p x)
  | neg : Resolves S e x → Resolves S (.unary m .neg e) (.neg p x)
  | not : Resolves S e x → Resolves S (.unary m .not e) (.not x)
  | step : Resolves S e (.var v) →
      Resolves S (.unary m (.step up after) e) (.step v p up after)
  | binary {z : Core.Expr} : z.binary? = some (op, x, y) → Resolves S e x → Resolves S f y →
      Resolves S (.binary m op e f) z
  | selection {t : ExprTy} {x y : Core.Expr} : (∀ p q, x.type.primitive? = some p →
        y.type.primitive? = some q → t.primitive? = some (p.promote q)) →
      Resolves S c b → Resolves S e x → Resolves S f y →
      Resolves S (.selection m c e f) (.selection t b x y)
  | call {q : QualName} {g : Core.Callee} {xs : List Core.Expr} :
      g.method.method.name = q.render →
      Ty.identicalAll g.method.method.paramTypes (xs.map fun x => x.type.type) →
      List.Forall₂ (Resolves S) es xs → Resolves S (.call m q ts es) (.call g xs)

/-- The variable of a declaration: without a type, or with `let` for a type, it has the type of the
value. -/
structure Core.Var.IsFor (v : Var) (name : String) (declared : Option Scalar) (type : ExprTy) :
    Prop where
  name : v.name = name
  type : v.type = (declared.filter fun s => !s.name.isLet).elim type .ofScalar

mutual

/-- What a statement stands for, with the variables that it declares for those behind it. -/
inductive Stmt.Resolves : List (List Var) → Stmt → Core.Stmt → List Var → Prop
  | expr : Expr.Resolves S e x → Stmt.Resolves S (.expr m e) (.expr x) []
  | declare {v : Var} : v.name = name → v.type = .ofScalar s →
      Stmt.Resolves S (.declare m s name) (.declare v) [v]
  | mutableDeclare {v : Var} : v.name = name → v.type = .ofScalar s →
      Stmt.Resolves S (.mutable m (some s) name none) (.declare v) [v]
  | define {v : Var} {x : Core.Expr} : v.IsFor name (some s) x.type → Expr.Resolves S e x →
      Stmt.Resolves S (.define m s name e) (.bind v x) [v]
  | immutable {v : Var} {x : Core.Expr} : v.IsFor name none x.type → Expr.Resolves S e x →
      Stmt.Resolves S (.immutable m name e) (.bind v x) [v]
  | mutable {v : Var} {x : Core.Expr} : v.IsFor name s x.type → Expr.Resolves S e x →
      Stmt.Resolves S (.mutable m s name (some e)) (.bind v x) [v]
  | assign : find? name S = some v → Expr.Resolves S e x →
      Stmt.Resolves S (.assign m name e) (.assign v x) []
  | branch : Expr.Resolves S e x → Stmt.AllResolve [] S body cs → Otherwise.Resolves S rest r →
      Stmt.Resolves S (.branch m e body rest) (.branch x cs r) []
  | loop : Expr.Resolves S e x → Stmt.AllResolve [] S body cs →
      Stmt.Resolves S (.loop m e body) (.loop x cs) []
  | retVoid : Stmt.Resolves S (.ret m none) .retVoid []
  | ret : Expr.Resolves S e x → Stmt.Resolves S (.ret m (some e)) (.ret x t) []

/-- What statements stand for if the innermost block has declared the variables `scope`. -/
inductive Stmt.AllResolve : List Var → List (List Var) → List Stmt → List Core.Stmt → Prop
  | nil : Stmt.AllResolve scope S [] []
  | cons : Stmt.Resolves (scope :: S) s c vs → Stmt.AllResolve (vs ++ scope) S ss cs →
      Stmt.AllResolve scope S (s :: ss) (c :: cs)

inductive Otherwise.Resolves : List (List Var) → Otherwise → Core.Otherwise → Prop
  | none : Otherwise.Resolves S .none .none
  | elseIf : Expr.Resolves S e x → Stmt.AllResolve [] S body cs → Otherwise.Resolves S rest r →
      Otherwise.Resolves S (.elseIf m e body rest) (.elseIf x cs r)
  | final : Stmt.AllResolve [] S body cs → Otherwise.Resolves S (.final m body) (.final cs)

end

namespace Core

mutual

/-- The variables that are declared in a statement. -/
def Stmt.binds : Stmt → List Nat
  | .declare v | .bind v _ => [v.id]
  | .destructure vars _ => vars.map Var.id
  | .branch _ body rest => Stmt.bindsAll body ++ Otherwise.binds rest
  | .loop _ body => Stmt.bindsAll body
  | _ => []

/-- The variables that are declared in statements. -/
def Stmt.bindsAll : List Stmt → List Nat
  | [] => []
  | s :: ss => Stmt.binds s ++ Stmt.bindsAll ss

/-- The variables that are declared in the other ways of a conditional statement. -/
def Otherwise.binds : Otherwise → List Nat
  | .none => []
  | .elseIf _ body rest => Stmt.bindsAll body ++ Otherwise.binds rest
  | .final body => Stmt.bindsAll body

end

/-- The variables of a method. -/
def Method.binds (m : Method) : List Nat :=
  m.vars.map Var.id ++ Stmt.bindsAll m.body

end Core

/-- The body of a method is resolved with its parameters in scope, and all variables differ. -/
structure Method.Resolves (f : Method) (m : Core.Method) : Prop where
  params : ∀ v ∈ m.vars, ∃ p, f.params[v.index.toNat]? = some p ∧ p.name = .word v.name ∧
    v.type = .val p.type
  body : Stmt.AllResolve m.vars.reverse [] f.body m.body
  apart : m.binds.Nodup

end SsaCompiler
