import SsaCompiler.Parser.Statements

/-!
# Parsing units

A unit is a list of declarations. Parsing stops at the first error; the declarations read so far are
kept beside it.

Modifiers with a colon hold for all declarations that follow in the same scope, modifiers without
one for the next declaration. A class body is a scope of its own for the former.
-/

namespace SsaCompiler

namespace Parser

/-- The modifiers that wait for declarations. -/
structure Scope where
  /-- The modifiers for all declarations of the scope. -/
  block : List String := []
  pending : List String := []

/-- The modifiers of a declaration that begins here. -/
def Scope.effective (c : Scope) : List String :=
  c.block ++ c.pending

/-- What waits behind such a declaration. -/
def Scope.spent (c : Scope) : Scope :=
  { c with pending := [] }

/-- Modifiers, as a node of their own: `block` if they hold for the scope, otherwise `list`. -/
def modifiers {δ : Type} (block list : Mark → List String → δ) (c : Scope) : Parser (δ × Scope) := do
  let pos ← pos
  let first ← want .modifier
  let rest ← many (nextIs (·.kind == .modifier)) take
  let words := (first :: rest).map Token.text
  if ← got .colon then
    return (block (← mark pos) words, ⟨words, []⟩)
  else
    return (list (← mark pos) words, { c with pending := words })

def param : Parser Param := do
  let mutable ← takeIf (·.is .typeWord "mut")
  let t ← type
  let s ← get
  let variadic := (s.peek 0).isOp "." && (s.peek 1).isOp "." && (s.peek 2).isOp "."
    && adjacent (s.peek 0) (s.peek 1) && adjacent (s.peek 1) (s.peek 2)
  if variadic then
    skip 3
  let name ← bindingName
  return ⟨t, variadic, name, mutable⟩

def methodRest (pos : Pos) (modifiers : List String) (result : Ty) (name : String) :
    Parser Method := do
  let generics ← typeParams
  let _ ← want .parenOpen
  let params ← commaList (got .parenClose) param
  let stmts ← body
  return ⟨← mark pos, modifiers, result, name, generics, params, stmts⟩

def fieldEntry (name : String) : Parser FieldEntry := do
  if ← isAssignAt 0 then
    skip 1
    return ⟨name, some (← expr)⟩
  else
    return ⟨name, none⟩

/-- A field whose type and first name have been read. -/
def fieldRest (pos : Pos) (modifiers : List String) (name : String) : Ty → Parser Member
  | .namedScalar type none => do
    let first ← fieldEntry name
    let rest ← many (got .comma) (do fieldEntry (← identifier))
    terminator
    return .field ⟨← mark pos, modifiers, type, first :: rest⟩
  | result => fail ("invalid field type " ++ result.render)

def member (c : Scope) : Parser (Member × Scope) := do
  if ← nextIs (·.kind == .modifier) then
    modifiers .modifierBlock .modifierList c
  else
    let pos ← pos
    let result ← resultType
    let name ← identifier
    let t ← peek
    if t.kind == .parenOpen || t.isOp "<" then
      return (.method (← methodRest pos c.effective result name), c.spent)
    else
      return (← fieldRest pos c.effective name result, c.spent)

/-- The members up to the end of a class body, at most `n` with the semicolons between them. -/
def membersUpTo (className : String) : Nat → Scope → Parser (List Member × Scope)
  | 0, _ => giveUp
  | n + 1, c => do
    if ← got .braceClose then
      return ([], c)
    else if ← got .semicolon then
      membersUpTo className n c
    else
      let t ← peek
      if t.kind == .finish || t.kind == .unexpected then
        fail ("unexpected end of class " ++ className)
      else
        let first ← member c
        let rest ← membersUpTo className n first.2
        return (first.1 :: rest.1, rest.2)

def members (className : String) (c : Scope) : Parser (List Member × Scope) := do
  membersUpTo className ((← get).tokens.length + 1) c

def classDecl (c : Scope) : Parser (Decl × Scope) := do
  let pos ← pos
  skip 1
  let name ← identifier
  let generics ← typeParams
  let _ ← want .braceOpen
  let inside ← members name {}
  return (.classDecl ⟨← mark pos, c.effective, name, generics, inside.1⟩,
    { inside.2 with block := c.block })

def method (c : Scope) : Parser (Decl × Scope) := do
  let pos ← pos
  let result ← resultType
  let name ← identifier
  if (← isAssignAt 0) || (← peek).kind == .semicolon then
    fail ("global variable " ++ name ++ " is not supported")
  else
    return (.method (← methodRest pos c.effective result name), c.spent)

def directive (t : Token) : Parser Decl := do
  let pos ← pos
  let make ←
    if t.text == "package" then pure Decl.package
    else if t.text == "import" then pure Decl.importing
    else if t.text == "using" then pure Decl.using
    else fail ("unexpected " ++ t.render)
  skip 1
  let name := (← want .string).text
  let _ ← want .semicolon
  return make (← mark pos) name

/-- The declaration that begins with a token. -/
def declaration (t : Token) (c : Scope) : Parser (Decl × Scope) :=
  match t.kind with
  | .unexpected => fail "unexpected token"
  | .directive => return (← directive t, c)
  | .modifier => modifiers .modifierBlock .modifierList c
  | .keyword => if t.text == "class" then classDecl c else fail ("unexpected " ++ t.render)
  | .typeWord | .identifier | .parenOpen => method c
  | _ => fail ("unexpected " ++ t.render)

/-- The next declaration; none at the end of the input. -/
def decl (c : Scope) : Parser (Option (Decl × Scope)) := do
  semicolons
  let t ← peek
  if t.kind == .finish then
    return none
  else
    return some (← declaration t c)

/-- A parser between two declarations. -/
inductive Session where
  | reading (scope : Scope) (state : State)
  | ended (pos : Pos)

inductive Answer where
  | decl (d : Decl)
  | finish (pos : Pos)
  | error (e : SyntaxError)

namespace Session

/-- The answer to the question for the next declaration. -/
def next : Session → Answer × Session
  | .ended pos => (.finish pos, .ended pos)
  | .reading scope s =>
    match (Parser.decl scope).run s with
    | .error e => (.error e, .ended e.pos)
    | .ok (none, t) => (.finish t.pos, .ended t.pos)
    | .ok (some (d, scope), t) => (.decl d, .reading scope t)

/-- Asks at most `n` times, until there is no declaration: the declarations, the error if there is one,
and what remains. -/
def upTo : Nat → Session → List Decl × Option SyntaxError × Session
  | 0, s => ([], some ⟨default, "unexpected token", true⟩, s)
  | n + 1, s =>
    match s.next with
    | (.decl d, next) =>
      let rest := upTo n next
      (d :: rest.1, rest.2)
    | (.finish _, next) => ([], none, next)
    | (.error e, next) => ([], some e, next)

end Session

end Parser

structure Parsed where
  decls : List Decl
  error : Option SyntaxError
  rest : Parser.Session

/-- Parses tokens without comments and line ends. -/
def parseTokens (file : String) (tokens : List Token) : Parsed :=
  let (decls, error, rest) := Parser.Session.upTo (tokens.length + 1)
    (.reading {} { file := file, tokens := tokens })
  ⟨decls, error, rest⟩

end SsaCompiler
