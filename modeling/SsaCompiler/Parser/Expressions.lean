import SsaCompiler.Parser.Types
import SsaCompiler.Tree.Precedence

/-!
# Parsing expressions

An expression is a chain of operands and binary operators, possibly followed by a selection. An
operand may have unary operators in front and indices or a step operator behind it. Operators of two
characters are recognised by touching tokens.
-/

namespace SsaCompiler.Parser

def mark (pos : Pos) : Parser Mark :=
  step (fun s => (⟨s.nextId, pos⟩, { s with nextId := s.nextId + 1 })) fun _ =>
    ⟨List.suffix_rfl, Nat.le_succ _⟩

def doubleOperators : List String :=
  ["&&", "||", "==", "!=", ">=", "<=", "->", "++", "--"]

/-- The binary operator at the start of the tokens, with the number of its tokens. Inside of a
selection a colon is no operator; steps are no binary operators. -/
def binaryOperator (s : State) : Option (BinaryOp × Nat) :=
  let t := s.peek 0
  let next := s.peek 1
  if t.kind == .colon then
    if s.inSelection then none
    else if next.kind == .colon && adjacent t next then some (.lambda, 2)
    else some (.slice, 1)
  else if t.kind != .operator then none
  else
    let double := t.text ++ next.text
    if next.kind == .operator && adjacent t next && doubleOperators.contains double then
      (BinaryOp.ofText? double).map (·, 2)
    else if ["=", "!", "&", "|", "?", ".", "~", "$"].contains t.text then none
    else (BinaryOp.ofText? t.text).map (·, 1)

/-- Whether a token can begin an operand that would follow `++` or `--`. -/
def startsOperand (t : Token) : Bool :=
  t.kind.isLiteral || t.kind == .identifier || t.kind == .parenOpen || t.kind == .bracketOpen

/-- The direction of the step operator at the start of the tokens, if there is one. -/
def stepOperator (s : State) : Option Bool :=
  let t := s.peek 0
  let next := s.peek 1
  if t.kind == .operator && (t.text == "+" || t.text == "-") && next.isOp t.text
      && adjacent t next then
    some (t.text == "+")
  else
    none

/-- Operators with operands behind a first operand. The chain leans to the right. -/
def chainRest (unary : Parser Expr) (first : Expr) : Parser Expr := do
  let links ← many (ask fun s => (binaryOperator s).isSome) do
    match binaryOperator (← get) with
    | some (op, n) =>
      skip n
      return (op, ← unary)
    | none => fail "unexpected token"
  nest first links
where
  nest (x : Expr) : List (BinaryOp × Expr) → Parser Expr
    | [] => return x
    | (op, y) :: rest => do
      let m ← mark x.pos
      return .binary m op x (← nest y rest)

/-- What follows the first operand of an expression: a chain, and a selection if there is one. -/
def exprRestWith (unary expr : Parser Expr) (first : Expr) : Parser Expr := do
  let x := (← chainRest unary first).reassociate
  if ← gotOp "?" then
    let y ← selecting true expr
    let _ ← want .colon
    let z ← expr
    return .selection (← mark x.pos) x y z
  else
    return x

def exprWith (unary : Parser Expr) : Parser Expr :=
  recursive fun self => do
    exprRestWith unary self (← unary)

def argsWith (expr : Parser Expr) : Parser (List Expr) := do
  let _ ← want .parenOpen
  commaList (got .parenClose) expr

/-- Whether arguments follow a name, maybe behind type arguments. -/
def callFollows : Parser Bool := do
  let t ← peek
  if t.kind == .parenOpen then
    return true
  else if t.isOp "<" then
    succeeds do
      let _ ← typeArgs
      return (← peek).kind == .parenOpen
  else
    return false

def nameOrCall (expr : Parser Expr) : Parser Expr := do
  let pos ← pos
  let first ← take
  let name := qualName (first :: (← pathRest))
  if ← callFollows then
    let generics ← typeArgs
    let args ← argsWith expr
    return .call (← mark pos) name generics args
  else
    return .accessor (← mark pos) name

/-- The first word of the name of a type. -/
def wantType : Parser Token := do
  let t ← peek
  if t.kind == .typeWord || t.kind == .identifier then
    take
  else
    fail ("expected type, got " ++ t.render)

def newExpr (expr : Parser Expr) : Parser Expr := do
  let pos ← pos
  skip 1
  let ref ← referencing
  let first ← wantType
  let name := qualName (first :: (← pathRest))
  let args ← typeArgs
  let type := Scalar.mk ref name args []
  if ← got .bracketOpen then
    let size ← expr
    let _ ← want .bracketClose
    return .arrayAlloc (← mark pos) type size
  else if (← peek).kind == .parenOpen then
    let args ← argsWith expr
    return .new (← mark pos) type args
  else
    return .new (← mark pos) type []

/-- A cast, a tuple or a group. Inside of parentheses a colon is an operator again. -/
def parenExpr (unary expr : Parser Expr) : Parser Expr := do
  let pos ← pos
  skip 1
  let t ← peek
  if t.kind == .typeWord && !isQualifier t.text then
    let type ← scalar
    let _ ← want .parenClose
    let x ← unary
    return .cast (← mark pos) type x
  else
    let x ← selecting false expr
    if (← peek).kind == .comma then
      let rest ← many (got .comma) expr
      let _ ← want .parenClose
      return .tuple (← mark pos) (x :: rest)
    else
      let _ ← want .parenClose
      return .group (← mark pos) x

def keywordExpr (unary expr : Parser Expr) (t : Token) : Parser Expr := do
  let pos ← pos
  if t.text == "new" then
    newExpr expr
  else if t.text == "malloc" then
    skip 1
    let type ← scalar
    return .malloc (← mark pos) type
  else if t.text == "sizeof" then
    skip 1
    if ← got .parenOpen then
      let type ← scalar
      let _ ← want .parenClose
      return .sizeofType (← mark pos) type
    else
      let x ← unary
      return .sizeofValue (← mark pos) x
  else
    fail ("unexpected " ++ t.render)

/-- An expression that begins with a type word: a reference or a dereference of a variable. -/
def typeWordExpr (t : Token) : Parser Expr := do
  let pos ← pos
  if t.text == "ref" then
    skip 1
    let name ← identifier
    return .refAccess (← mark pos) name
  else if t.text == "deref" then
    skip 1
    let name ← identifier
    return .derefAccess (← mark pos) name
  else
    fail ("unexpected " ++ t.render)

def operand (unary expr : Parser Expr) : Parser Expr := do
  let pos ← pos
  let t ← peek
  if t.kind.isLiteral then
    skip 1
    return .literal (← mark pos) t.kind t.text
  else match t.kind with
  | .identifier => nameOrCall expr
  | .keyword => keywordExpr unary expr t
  | .typeWord => typeWordExpr t
  | .parenOpen => parenExpr unary expr
  | .bracketOpen =>
    skip 1
    let elems ← commaList (got .bracketClose) expr
    return .arrayLiteral (← mark pos) elems
  | _ => fail ("unexpected " ++ t.render)

def nestIndices (x : Expr) : List Expr → Parser Expr
  | [] => return x
  | i :: rest => do
    nestIndices (.index (← mark x.pos) x i) rest

/-- Indices and a step operator behind an operand. A step operator in front of another operand is
left in place. -/
def afterOperand (expr : Parser Expr) (x : Expr) : Parser Expr := do
  let indices ← many (got .bracketOpen) do
    let i ← expr
    let _ ← want .bracketClose
    return i
  let x ← nestIndices x indices
  let s ← get
  match stepOperator s with
  | some up =>
    if startsOperand (s.peek 2) then
      return x
    else
      skip 2
      return .unary (← mark x.pos) (.step up true) x
  | none => return x

/-- An operand with unary operators in front of it. -/
def unaryExpr : Parser Expr :=
  recursive fun self => do
    let pos ← pos
    let s ← get
    let t := s.peek 0
    match stepOperator s with
    | some up =>
      skip 2
      let x ← self
      return .unary (← mark pos) (.step up false) x
    | none =>
      if t.isOp "-" then
        skip 1
        let x ← self
        return .unary (← mark pos) .neg x
      else if t.isOp "!" then
        skip 1
        let x ← self
        return .unary (← mark pos) .not x
      else
        let expr := exprWith self
        afterOperand expr (← operand self expr)

def expr : Parser Expr :=
  exprWith unaryExpr

def exprRest (first : Expr) : Parser Expr :=
  exprRestWith unaryExpr expr first

end SsaCompiler.Parser
