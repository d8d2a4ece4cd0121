import SsaCompiler.Parser.Basic
import SsaCompiler.Tree.Basic

/-!
# Parsing types and names

Scalars with their qualifiers, type arguments and dimensions, tuple types, method result types and
binding names.
-/

namespace SsaCompiler.Parser

def isQualifier (w : String) : Bool :=
  w == "ref" || w == "deref" || w == "mut"

/-- The name made of tokens; a single type word is a primitive name. -/
def qualName : List Token → QualName
  | [t] => ⟨[t.text], t.kind == .typeWord⟩
  | ts => ⟨ts.map Token.text, false⟩

/-- Further words of a path, each behind a dot. -/
def pathRest : Parser (List Token) :=
  many (ask fun s => (s.peek 0).isOp "." && (s.peek 1).kind == .identifier) (do skip 1; take)

/-- How many stars touch the token `last` and each other. -/
def stars (last : Token) : List Token → Nat
  | [] => 0
  | t :: ts => if t.isOp "*" && adjacent last t then stars t ts + 1 else 0

/-- A qualifier in front of a type. A `ref` that is followed by no type is left in place. -/
def referencing : Parser Referencing := do
  let t ← peek
  let next ← peekAt 1
  if t.kind != .typeWord then
    return .none
  else if t.text == "mut" then
    skip 1
    return .mut
  else if t.text != "ref" && t.text != "deref" then
    return .none
  else if next.kind != .typeWord && next.kind != .identifier && !next.isOp "*" then
    return .none
  else
    skip 1
    let n := stars t (← get).tokens
    skip n
    return if t.text == "ref" then .ref (n + 1) else .deref (n + 1)

/-- Array dimensions: `[]`, `[4]`, `[n]`. -/
def dimensions : Parser (List Dimension) :=
  many (nextIs (·.kind == .bracketOpen)) do
    skip 1
    let t ← peek
    match t.kind with
    | .bracketClose =>
      skip 1
      return .unsized
    | .integer =>
      skip 1
      let _ ← want .bracketClose
      return .constant t.text
    | .identifier =>
      skip 1
      let _ ← want .bracketClose
      return .symbolic t.text
    | _ => fail ("invalid array dimension " ++ t.render)

/-- A list of type arguments in angle brackets, if there is one. Type arguments of an argument are
kept beside its type. -/
def typeArgsWith (scalar : Parser Scalar) : Parser (Option (List TypeArg)) := do
  if ← gotOp "<" then
    let args ← commaList (gotOp ">") do
      if ← takeIf (·.is .modifier "default") then
        return .mk none none
      let s ← scalar
      return .mk (some (.scalar s.withoutArgs)) s.args
    return some args
  else
    return none

def scalar : Parser Scalar :=
  recursive fun self => do
    let ref ← referencing
    let t ← peek
    let segments ←
      if t.kind == .typeWord && !isQualifier t.text then do
        skip 1
        pure [t]
      else if t.kind == .identifier then do
        skip 1
        pure (t :: (← pathRest))
      else
        fail ("expected type, got " ++ t.render)
    let args ← typeArgsWith self
    let dims ← dimensions
    return .mk ref (qualName segments) args dims

/-- A list of type arguments in angle brackets, if there is one. -/
def typeArgs : Parser (Option (List TypeArg)) :=
  typeArgsWith scalar

/-- A list of type parameters in angle brackets, if there is one. -/
def typeParams : Parser (Option (List TypeParam)) :=
  recursive fun self => do
    if ← gotOp "<" then
      let params ← commaList (gotOp ">") do
        let name ← identifier
        let params ← self
        if ← isAssignAt 0 then
          skip 1
          return .mk name params (some (← scalar))
        else
          return .mk name params none
      return some params
    else
      return none

def type : Parser Ty :=
  recursive fun self => do
    if ← got .parenOpen then
      return .tuple .none (← commaList (got .parenClose) self)
    else
      return .scalar (← scalar)

def nameIfAny : Parser (Option String) := do
  if (← peek).kind == .identifier then
    return some (← take).text
  else
    return none

def nameScalar : Ty → Parser Ty
  | .namedScalar s none => return .namedScalar s (← nameIfAny)
  | t => return t

/-- A parameter of a function type in a method result. -/
def resultLambdaParam : Parser LambdaParam := do
  let s ← scalar
  let name ← nameIfAny
  return .mk .none (.scalar s) false (name.map .word)

/-- The result type of a method: a scalar, a group with names, or a function type. -/
def resultType : Parser Ty :=
  recursive fun self => do
    let t ←
      if ← got .parenOpen then
        pure (Ty.namedGroup .none (← commaList (got .parenClose) (self >>= nameScalar)))
      else
        pure (Ty.namedScalar (← scalar) none)
    if ← gotOp "|" then
      return .namedLambda t (← commaList (gotOp "|") resultLambdaParam) none
    else
      return t

def bindingName : Parser BindingName :=
  recursive fun self => do
    if ← got .parenOpen then
      return .group (← commaList (got .parenClose) self)
    else
      return .word (← identifier)

end SsaCompiler.Parser
