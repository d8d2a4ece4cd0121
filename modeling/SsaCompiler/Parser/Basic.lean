import SsaCompiler.Token.Basic

/-!
# Parsing tokens

A parser works on the tokens that remain and fails with the first error. The end of the input reads
as an endless supply of finish tokens, so looking ahead is always possible.

A parser can only take tokens from the front, and every node gets a fresh number when it is made. This
is part of what a parser is (`State.Leads`). Looking ahead with `succeeds` puts the tokens back.

Recursive rules are written with `recursive`: the rule gets itself as an argument, to be used behind
at least one token. The tokens that remain bound the depth of the recursion, so `recursive` is
total: a rule that does not keep to this gives up, and looking ahead does not hide that.
-/

namespace SsaCompiler

/-- The first error of a text that is no program. -/
structure SyntaxError where
  pos : Pos
  message : String
  /-- Whether nothing is wrong with the text, but a rule was used too often without taking a token. -/
  gaveUp : Bool := false
  deriving DecidableEq, Repr

def SyntaxError.render (e : SyntaxError) : String :=
  e.pos.render ++ ": " ++ e.message

namespace Parser

structure State where
  file : String
  tokens : List Token
  /-- Whether a colon ends the expression, as between the values of `c ? a : b`. -/
  inSelection : Bool := false
  nextId : Nat := 0
  deriving Inhabited

namespace State

/-- The token `n` places ahead. -/
def peek (s : State) (n : Nat) : Token :=
  s.tokens.getD n (.of .finish "")

def pos (s : State) : Pos :=
  (s.peek 0).span.pos s.file

/-- From one state a parser can get to the other: tokens have been taken from the front, and numbers
have been given away in ascending order. -/
structure Leads (s t : State) : Prop where
  tokens : t.tokens <:+ s.tokens
  nextId : s.nextId ≤ t.nextId

theorem Leads.refl (s : State) : s.Leads s :=
  ⟨List.suffix_rfl, Nat.le_refl _⟩

theorem Leads.trans {s t u : State} (h : s.Leads t) (h' : t.Leads u) : s.Leads u :=
  ⟨h'.tokens.trans h.tokens, Nat.le_trans h.nextId h'.nextId⟩

end State

end Parser

structure Parser (α : Type) where
  run : Parser.State → Except SyntaxError (α × Parser.State)
  leads : ∀ {s a t}, run s = .ok (a, t) → s.Leads t

namespace Parser

variable {α : Type}

instance : Monad Parser where
  pure a := ⟨fun s => .ok (a, s), fun h => by cases h; exact .refl _⟩
  bind x f := ⟨fun s => (x.run s).bind fun p => (f p.1).run p.2, fun {s _ _} h => by
    cases hx : x.run s with
    | error e =>
      rw [hx] at h
      cases h
    | ok p =>
      rw [hx] at h
      exact (x.leads hx).trans ((f p.1).leads h)⟩

/-- A step that does not fail. -/
def step (f : State → α × State) (h : ∀ s : State, s.Leads (f s).2) : Parser α :=
  ⟨fun s => .ok (f s), fun {s _ _} hs => by
    have hleads := h s
    rwa [Except.ok.inj hs] at hleads⟩

/-- What can be seen of the state. -/
def ask (f : State → α) : Parser α :=
  step (fun s => (f s, s)) .refl

abbrev get : Parser State :=
  ask id

/-! ## Single tokens -/

def fail (message : String) : Parser α :=
  ⟨fun s => .error { pos := s.pos, message := message }, fun h => by cases h⟩

def giveUp : Parser α :=
  ⟨fun s => .error ⟨s.pos, "unexpected token", true⟩, fun h => by cases h⟩

abbrev peekAt (n : Nat) : Parser Token :=
  ask (·.peek n)

abbrev peek : Parser Token :=
  peekAt 0

abbrev nextIs (fits : Token → Bool) : Parser Bool :=
  ask fun s => fits (s.peek 0)

abbrev pos : Parser Pos :=
  ask State.pos

def skip (n : Nat) : Parser Unit :=
  step (fun s => ((), { s with tokens := s.tokens.drop n })) fun _ =>
    ⟨List.drop_suffix .., Nat.le_refl _⟩

def semicolons : Parser Unit :=
  step (fun s => ((), { s with tokens := s.tokens.dropWhile (·.kind == .semicolon) })) fun _ =>
    ⟨List.dropWhile_suffix _, Nat.le_refl _⟩

def take : Parser Token := do
  let t ← peek
  skip 1
  return t

def takeIf (fits : Token → Bool) : Parser Bool := do
  if ← nextIs fits then
    skip 1
    return true
  else
    return false

abbrev got (kind : Token.Kind) : Parser Bool :=
  takeIf (·.kind == kind)

/-- Takes the next token if it is the given operator character. -/
abbrev gotOp (text : String) : Parser Bool :=
  takeIf (·.isOp text)

def want (kind : Token.Kind) : Parser Token := do
  let t ← peek
  if t.kind == kind then
    take
  else
    fail ("expected " ++ kind.name ++ ", got " ++ t.render)

def identifier : Parser String :=
  return (← want .identifier).text

/-- Takes the end of a statement; a closing brace or the end of the input is left in place. -/
def terminator : Parser Unit := do
  let t ← peek
  if t.kind == .semicolon then
    skip 1
  else if t.kind == .braceClose || t.kind == .finish then
    return
  else
    fail ("expected SEMICOLON, got " ++ t.render)

/-- Whether nothing stands between two tokens. Tokens without a place count as touching. -/
def adjacent (a b : Token) : Bool :=
  !a.span.isValid || !b.span.isValid || a.span.stop == b.span.start

/-- Whether the token `n` places ahead is a single equals sign. -/
abbrev isAssignAt (n : Nat) : Parser Bool :=
  ask fun s => (s.peek n).isOp "=" &&
    !((s.peek (n + 1)).isOp "=" && adjacent (s.peek n) (s.peek (n + 1)))

def wantAssign : Parser Unit := do
  if ← isAssignAt 0 then
    skip 1
  else
    fail ("expected OPERATOR(=), got " ++ (← peek).render)

/-! ## Recursion and repetition -/

/-- A rule unfolded `n` times; deeper uses of the rule give up. -/
def unfolded : Nat → (Parser α → Parser α) → Parser α
  | 0, _ => giveUp
  | n + 1, rule => ⟨fun s => (rule (unfolded n rule)).run s, (rule (unfolded n rule)).leads⟩

/-- A rule that may use itself behind at least one token. -/
def recursive (rule : Parser α → Parser α) : Parser α :=
  ⟨fun s => (unfolded (s.tokens.length + 1) rule).run s, fun h => (unfolded _ rule).leads h⟩

def many (begins : Parser Bool) (item : Parser α) : Parser (List α) :=
  recursive fun self => do
    if ← begins then
      let x ← item
      return x :: (← self)
    else
      return []

/-- Items in front of a closing token, with commas between them. -/
def commaList (closed : Parser Bool) (item : Parser α) : Parser (List α) := do
  if ← closed then
    return []
  else
    let first ← item
    return first :: (← many (return !(← closed)) (do let _ ← want .comma; item))

/-- Whether a parser succeeds here. The tokens that it takes are put back. -/
def succeeds (p : Parser Bool) : Parser Bool where
  run s :=
    match p.run s with
    | .ok (b, t) => .ok (b, { t with tokens := s.tokens })
    | .error e => if e.gaveUp then .error e else .ok (false, s)
  leads h := by
    split at h
    next hp =>
      cases h
      exact ⟨List.suffix_rfl, (p.leads hp).nextId⟩
    next =>
      split at h
      next => cases h
      next =>
        cases h
        exact .refl _

/-- Parses with or without a colon that ends the expression, and is then back to how it was. -/
def selecting (inside : Bool) (p : Parser α) : Parser α where
  run s :=
    match p.run { s with inSelection := inside } with
    | .ok (a, t) => .ok (a, { t with inSelection := s.inSelection })
    | .error e => .error e
  leads h := by
    split at h
    next hp =>
      cases h
      exact ⟨(p.leads hp).tokens, (p.leads hp).nextId⟩
    next => cases h

end Parser

end SsaCompiler
