/-!
# Operators

The binary operators with their binding strength, and the unary operations. An operator binds before
another one to its right if it is stronger, or equally strong and left-associative; only the power
operator associates to the right.

Text that is no operator gives no operator; where a strength is needed all the same, it is weaker
than every operator.
-/

namespace SsaCompiler

inductive BinaryOp where
  | and | or | add | sub | mul | div | mod | pow | eq | ne | gt | ge | lt | le
  | slice | lambda | arrow | assign
  deriving DecidableEq, Repr

namespace BinaryOp

def all : List BinaryOp := [
  .and, .or, .add, .sub, .mul, .div, .mod, .pow, .eq, .ne, .gt, .ge, .lt, .le, .slice, .lambda,
  .arrow, .assign]

def text : BinaryOp → String
  | .and => "&&"
  | .or => "||"
  | .add => "+"
  | .sub => "-"
  | .mul => "*"
  | .div => "/"
  | .mod => "%"
  | .pow => "^"
  | .eq => "=="
  | .ne => "!="
  | .gt => ">"
  | .ge => ">="
  | .lt => "<"
  | .le => "<="
  | .slice => ":"
  | .lambda => "::"
  | .arrow => "->"
  | .assign => "="

def ofText? (s : String) : Option BinaryOp :=
  all.find? fun op => op.text == s

/-- The operator of a given number, counted from one. -/
def ofCode? (n : Nat) : Option BinaryOp :=
  if n == 0 then none else all[n - 1]?

/-- The binding strength; higher binds tighter. -/
def precedence : BinaryOp → Nat
  | .and | .or => 0
  | .add | .sub => 1
  | .mul | .div | .mod => 2
  | .pow => 3
  | .eq | .ne | .gt | .ge | .lt | .le => 4
  | .slice | .lambda => 5
  | .arrow => 6
  | .assign => 7

/-- Whether equally strong operators group to the right. -/
def isRightAssoc (op : BinaryOp) : Bool :=
  op == .pow

def isComparison : BinaryOp → Bool
  | .eq | .ne | .gt | .ge | .lt | .le => true
  | _ => false

def isLogical (op : BinaryOp) : Bool :=
  op == .and || op == .or

/-- Whether `x` takes the operand between them when `x` stands to the left of `y`. -/
def bindsBefore (x y : BinaryOp) : Bool :=
  x.precedence > y.precedence || (x.precedence == y.precedence && !x.isRightAssoc)

/-! ## Text that may be no operator -/

/-- The operator as it is written, or a word for none. -/
def textOf (op : Option BinaryOp) : String :=
  op.elim "Unknown" text

/-- The binding strength, below all others for none. -/
def precedenceOf (op : Option BinaryOp) : Int :=
  op.elim (-1) fun o => o.precedence

def rightAssocOf (op : Option BinaryOp) : Bool :=
  op.any isRightAssoc

def bindsBeforeOf (x y : Option BinaryOp) : Bool :=
  precedenceOf x > precedenceOf y || (precedenceOf x == precedenceOf y && !rightAssocOf x)

end BinaryOp

inductive UnaryOp where
  | neg
  | not
  /-- A step up or down; the value is that before the step if the operator stands behind. -/
  | step (up : Bool) (after : Bool)
  deriving DecidableEq, Repr

namespace UnaryOp

def text : UnaryOp → String
  | .neg => "-"
  | .not => "!"
  | .step true _ => "++"
  | .step false _ => "--"

def isAfter : UnaryOp → Bool
  | .step _ after => after
  | _ => false

end UnaryOp

end SsaCompiler
