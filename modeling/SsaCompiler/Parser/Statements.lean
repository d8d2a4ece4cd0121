import SsaCompiler.Parser.Expressions

/-!
# Parsing statements
-/

namespace SsaCompiler.Parser

def condition : Parser Expr := do
  let _ ← want .parenOpen
  let x ← expr
  let _ ← want .parenClose
  return x

/-- What follows a first branch. An inserted semicolon may stand in front of `else`. -/
def otherwise (body : Parser (List Stmt)) : Parser Otherwise :=
  recursive fun self => do
    if (← peek).kind == .semicolon && (← peekAt 1).is .keyword "else" then
      skip 1
    if ← takeIf (·.is .keyword "else") then
      let pos ← pos
      if ← takeIf (·.is .keyword "if") then
        let cond ← condition
        let stmts ← body
        let rest ← self
        return .elseIf (← mark pos) cond stmts rest
      else
        let stmts ← body
        return .final (← mark pos) stmts
    else
      return .none

def letStmt : Parser Stmt := do
  let pos ← pos
  let word ← take
  if ← got .parenOpen then
    let names ← commaList (got .parenClose) bindingName
    wantAssign
    let value ← expr
    terminator
    return .destructure (← mark pos) names value
  else
    let name ← identifier
    if ← isAssignAt 0 then
      skip 1
      let value ← expr
      terminator
      return .immutable (← mark pos) name value
    else
      terminator
      return .declare (← mark pos) (.mk .none (qualName [word]) none []) name

def mutStmt : Parser Stmt := do
  let pos ← pos
  skip 1
  if (← peek).kind == .identifier && (← isAssignAt 1) then
    let name ← identifier
    wantAssign
    let value ← expr
    terminator
    return .mutable (← mark pos) none name (some value)
  else
    let type := (← scalar).withRef .mut
    let name ← identifier
    let value ←
      if ← isAssignAt 0 then do
        skip 1
        pure (some (← expr))
      else
        pure none
    terminator
    return .mutable (← mark pos) (some type) name value

def typedLocal : Parser Stmt := do
  let pos ← pos
  let type ← scalar
  let name ← identifier
  if ← isAssignAt 0 then
    skip 1
    let value ← expr
    terminator
    return .define (← mark pos) type name value
  else
    terminator
    return .declare (← mark pos) type name

/-- Whether a variable declaration begins here: a type, a name, and an assignment or the end of the
statement. -/
def isDeclaration : Parser Bool :=
  succeeds do
    let _ ← scalar
    let t ← peek
    let next ← peekAt 1
    return t.kind == .identifier
      && ((← isAssignAt 1) || next.kind == .semicolon || next.kind == .braceClose)

/-- The length of the path of fields at the start of the tokens, counted in words behind the first;
each is a dot with an identifier. -/
def pathLength : List Token → Nat
  | t :: u :: ts => if t.isOp "." && u.kind == .identifier then pathLength ts + 1 else 0
  | _ => 0

/-- An expression statement whose first operand has been read. -/
def exprStmtRest (pos : Pos) (first : Expr) : Parser Stmt := do
  let x ← exprRest first
  terminator
  return .expr (← mark pos) x

/-- A statement whose first operand has been read: an assignment if that is an element of an array. -/
def operandStmt (pos : Pos) (x : Expr) : Parser Stmt := do
  let assigns ← isAssignAt 0
  match x, assigns with
  | .index target a i, true =>
    wantAssign
    let value ← expr
    terminator
    return .indexAssign (← mark pos) target a i value
  | _, _ => exprStmtRest pos x

def identifierStmt : Parser Stmt := do
  if ← isDeclaration then
    typedLocal
  else
    let pos ← pos
    let path := pathLength ((← get).tokens.drop 1)
    if ← isAssignAt 1 then
      let name ← identifier
      wantAssign
      let value ← expr
      terminator
      return .assign (← mark pos) name value
    else if path > 0 && (← isAssignAt (2 * path + 1)) then
      let first ← take
      let target := qualName (first :: (← pathRest))
      wantAssign
      let value ← expr
      terminator
      return .fieldAssign (← mark pos) target value
    else
      operandStmt pos (← unaryExpr)

/-- A statement that begins with a keyword, other than a conditional statement or a loop. -/
def keywordStmt (t : Token) : Parser Stmt := do
  let pos ← pos
  if t.text == "return" then
    skip 1
    let next ← peek
    let value ←
      if next.kind == .semicolon || next.kind == .braceClose then pure none
      else pure (some (← expr))
    terminator
    return .ret (← mark pos) value
  else if t.text == "free" then
    skip 1
    let name ← identifier
    terminator
    return .free (← mark pos) name
  else
    exprStmtRest pos (← unaryExpr)

def typeWordStmt (t : Token) : Parser Stmt := do
  if t.text == "let" then
    letStmt
  else if t.text == "mut" then
    mutStmt
  else if t.text == "ref" && (← peekAt 1).kind == .identifier && (← isAssignAt 2) then
    let pos ← pos
    skip 1
    let name ← identifier
    wantAssign
    let value ← expr
    terminator
    return .reference (← mark pos) name value
  else
    typedLocal

def stmtWith (body : Parser (List Stmt)) : Parser Stmt := do
  let pos ← pos
  let t ← peek
  match t.kind with
  | .keyword =>
    if t.text == "if" then
      skip 1
      let cond ← condition
      let stmts ← body
      let rest ← otherwise body
      return .branch (← mark pos) cond stmts rest
    else if t.text == "while" then
      skip 1
      let cond ← condition
      let stmts ← body
      return .loop (← mark pos) cond stmts
    else
      keywordStmt t
  | .typeWord => typeWordStmt t
  | .identifier => identifierStmt
  | _ => exprStmtRest pos (← unaryExpr)

def stmtsWith (body : Parser (List Stmt)) : Parser (List Stmt) :=
  recursive fun self => do
    if ← got .braceClose then
      return []
    else if ← got .semicolon then
      self
    else
      let t ← peek
      if t.kind == .finish || t.kind == .unexpected then
        fail ("expected END, got " ++ t.render)
      let s ← stmtWith body
      return s :: (← self)

def body : Parser (List Stmt) :=
  recursive fun self => do
    let _ ← want .braceOpen
    stmtsWith self

end SsaCompiler.Parser
