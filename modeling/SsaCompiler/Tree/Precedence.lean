import SsaCompiler.Tree.Basic

/-!
# Operator precedence

A chain of operands and binary operators is first read without regard to precedence, as some nesting
of binary nodes. `Expr.reassociate` takes the chain apart and builds the tree that the binding
strengths ask for. Parentheses are nodes of their own and keep their shape.

The tree is built from the right: an operand and the operator behind it are attached to the tree of
what follows. They sink down its left spine as long as the operator binds before the one found
there.
-/

namespace SsaCompiler.Expr

/-- A chain: operands, each but the last with the operator that follows it. -/
structure Chain where
  links : List (Expr × Mark × BinaryOp)
  last : Expr

/-- Takes an expression apart into its chain, in front of `rest`. -/
def chainOnto : Expr → (Mark × BinaryOp) × Chain → Chain
  | .binary m op x y, (next, rest) => chainOnto x ((m, op), chainOnto y (next, rest))
  | e, ((m, op), rest) => { rest with links := (e, m, op) :: rest.links }

/-- The chain of an expression; an expression that is no binary operation is a chain of one. -/
def chain : Expr → Chain
  | .binary m op x y => chainOnto x ((m, op), chain y)
  | e => ⟨[], e⟩

/-- Attaches the operand `x` and the operator `op` behind it to the tree of what follows. -/
def attach (x : Expr) (m : Mark) (op : BinaryOp) : Expr → Expr
  | .binary n p l r =>
    if op.bindsBefore p then .binary n p (attach x m op l) r
    else .binary m op x (.binary n p l r)
  | e => .binary m op x e

def Chain.tree (c : Chain) : Expr :=
  c.links.foldr (fun (x, m, op) t => attach x m op t) c.last

/-- The tree that the binding strengths ask for. -/
def reassociate (e : Expr) : Expr :=
  e.chain.tree

end SsaCompiler.Expr
