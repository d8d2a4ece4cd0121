import SsaCompiler.Parser.Declarations

/-!
# Parsing goes forward

A rule may use itself only behind a token. `Takes` says of a parser on how many tokens it does not give
up, and whether it takes one of them if it succeeds. There is an instance for each way of putting
parsers together and one for each rule that uses itself, so instance search goes through the bodies of
the rules; the argument is made by hand only where a token is looked at long before it is taken. Hence
reading a unit comes to an end, whatever its tokens are.
-/

namespace SsaCompiler

open List

namespace Parser

variable {α β : Type} {held took : Bool} {n : Nat} {rule : Parser α → Parser α}

/-- What is asked of a run on `m` tokens: it does not give up, and takes a token if `took` holds. -/
def Goes (took : Bool) (m : Nat) : Except SyntaxError (α × State) → Prop
  | .ok (_, t) => t.tokens.length + took.toNat ≤ m
  | .error e => e.gaveUp = false

/-- What is known of the runs of a parser on fewer than `n` tokens, and at least one if `held` holds. -/
class Takes (held : Bool) (n : Nat) (took : Bool) (p : Parser α) : Prop where
  goes : ∀ s : State, held.toNat ≤ s.tokens.length → s.tokens.length < n →
    Goes took s.tokens.length (p.run s)

/-- A kind that the end of the input is not of. -/
class Solid (k : Token.Kind) : Prop where
  ne : k ≠ .finish

/-- A question to which the answer is no if there are no tokens. -/
class Sees (g : State → Bool) : Prop where
  pos : ∀ {s}, g s → 1 ≤ s.tokens.length

instance : Solid .operator := ⟨nofun⟩
instance : Solid .semicolon := ⟨nofun⟩
instance : Solid .comma := ⟨nofun⟩
instance : Solid .colon := ⟨nofun⟩
instance : Solid .parenOpen := ⟨nofun⟩
instance : Solid .parenClose := ⟨nofun⟩
instance : Solid .bracketOpen := ⟨nofun⟩
instance : Solid .bracketClose := ⟨nofun⟩
instance : Solid .braceOpen := ⟨nofun⟩
instance : Solid .braceClose := ⟨nofun⟩
instance : Solid .identifier := ⟨nofun⟩
instance : Solid .keyword := ⟨nofun⟩
instance : Solid .modifier := ⟨nofun⟩
instance : Solid .string := ⟨nofun⟩

theorem State.length_pos {s : State} (h : (s.peek 0).kind ≠ .finish) : 1 ≤ s.tokens.length := by
  rcases s with ⟨file, _ | ⟨t, ts⟩, _, _⟩
  · exact absurd rfl h
  · simp

instance {k : Token.Kind} [h : Solid k] : Sees fun s => (s.peek 0).kind == k where
  pos hs := State.length_pos (beq_iff_eq.mp hs ▸ h.ne)

instance {g h : State → Bool} [i : Sees g] : Sees fun s => g s && h s where
  pos hs := i.pos (Bool.and_eq_true_iff.mp hs).1

instance {k : Token.Kind} {w : String} [Solid k] : Sees fun s => (s.peek 0).is k w :=
  inferInstanceAs (Sees fun s => (s.peek 0).kind == k && (s.peek 0).text == w)

instance {w : String} : Sees fun s => (s.peek 0).isOp w :=
  inferInstanceAs (Sees fun s => (s.peek 0).is .operator w)

theorem run_bind (x : Parser α) (f : α → Parser β) (s : State) :
    (x >>= f).run s = (x.run s).bind fun p => (f p.1).run p.2 :=
  rfl

namespace Takes

variable {x p q : Parser α} {f : α → Parser β} {g : State → α} {fits : Token → Bool}

/-! ## Sequences -/

theorem mono {m : Nat} (h : Takes held n took p) (hm : m ≤ n) : Takes held m took p :=
  ⟨fun s hs hn => h.goes s hs (Nat.lt_of_lt_of_le hn hm)⟩

instance (priority := low) fewer [h : Takes held n took p] : Takes held (n - 1) took p :=
  h.mono (Nat.sub_le n 1)

instance (priority := low) weaken [h : Takes held n true p] : Takes held n false p where
  goes s hs hn := by
    have hp := h.goes s hs hn
    revert hp
    cases p.run s with
    | error e => exact id
    | ok r => exact Nat.le_of_succ_le

theorem bind {took' : Bool} (hx : Takes held n took x)
    (hf : ∀ a, Takes false (n - took.toNat) took' (f a)) : Takes held n (took || took') (x >>= f) where
  goes s hs hn := by
    have hp := hx.goes s hs hn
    rw [run_bind]
    cases hr : x.run s with
    | error e => rwa [hr] at hp
    | ok r =>
      rw [hr] at hp
      simp only [Goes] at hp
      have hg := (hf r.1).goes r.2 (Nat.zero_le _) (by omega)
      simp only [Except.bind]
      revert hg
      cases (f r.1).run r.2 with
      | error e => exact id
      | ok u =>
        simp only [Goes]
        cases took <;> cases took' <;> simp only [Bool.or_true, Bool.or_false, Bool.toNat_true,
          Bool.toNat_false] at hp ⊢ <;> omega

instance behind [h : Takes held n true x] [i : ∀ a, Takes false (n - 1) false (f a)] :
    Takes held n true (x >>= f) :=
  h.bind i

instance after [h : Takes held n false x] [i : ∀ a, Takes false n took (f a)] :
    Takes held n took (x >>= f) := by
  have hbind := h.bind i
  rwa [Bool.false_or] at hbind

instance pure {a : α} : Takes held n false (Pure.pure a : Parser α) where
  goes _ _ _ := Nat.le_refl _

instance fail {m : String} : Takes held n took (Parser.fail m : Parser α) where
  goes _ _ _ := rfl

instance ite {c : Prop} [Decidable c] [hp : Takes held n took p] [hq : Takes held n took q] :
    Takes held n took (if c then p else q) := by
  split
  · exact hp
  · exact hq

/-! ## Tokens -/

instance ask : Takes held n false (ask g) where
  goes _ _ _ := Nat.le_refl _

instance asking [h : ∀ a, Takes held n took (f a)] : Takes held n took (Parser.ask g >>= f) where
  goes s hs hn := (h (g s)).goes s hs hn

instance marking {pos : Pos} {f : Mark → Parser β} [h : ∀ m, Takes held n took (f m)] :
    Takes held n took (mark pos >>= f) where
  goes s hs hn := (h ⟨s.nextId, pos⟩).goes { s with nextId := s.nextId + 1 } hs hn

/-- If the next token is not the end of the input, there is one to take. -/
theorem asked (hend : ∀ s, (s.peek 0).kind = .finish → Takes held n took (f (g s)))
    (htoken : ∀ s, (s.peek 0).kind ≠ .finish → Takes true n took (f (g s))) :
    Takes held n took (Parser.ask g >>= f) where
  goes s hs hn := by
    by_cases h : (s.peek 0).kind = .finish
    · exact (hend s h).goes s hs hn
    · exact (htoken s h).goes s (State.length_pos h) hn

instance seen {g : State → Bool} [h : Sees g] [hp : Takes true n took p] [hq : Takes held n took q] :
    Takes held n took (Parser.ask g >>= fun b => if b then p else q) where
  goes s hs hn := by
    show Goes took _ (Parser.run (if g s then p else q) s)
    split
    next hg => exact hp.goes s (h.pos hg) hn
    next => exact hq.goes s hs hn

instance skip {k : Nat} : Takes held n false (skip k) where
  goes s _ _ := by
    simp [Parser.skip, step, Goes]

instance skipHeld {k : Nat} : Takes true n true (Parser.skip (k + 1)) where
  goes s hs _ := by
    simp only [Parser.skip, step, Goes, length_drop, Bool.toNat_true] at hs ⊢
    omega

instance takeIf : Takes held n false (takeIf fits) := by
  unfold Parser.takeIf
  infer_instance

/-- What follows if a token has been taken stands behind that token. -/
instance taken [Sees fun s => fits (s.peek 0)] [hp : Takes false (n - 1) false p]
    [hq : Takes held n took q] :
    Takes held n took (Parser.takeIf fits >>= fun b => if b then p else q) where
  goes s hs hn := by
    have hrun : (Parser.takeIf fits >>= fun b => if b then p else q).run s =
        (nextIs fits >>= fun b => if b then Parser.skip 1 >>= fun _ => p else q).run s := by
      show (Parser.run (if fits (s.peek 0) then _ else _) s).bind _ =
        Parser.run (if fits (s.peek 0) then _ else _) s
      split <;> rfl
    have hp : Takes true n true (Parser.skip 1 >>= fun _ => p) := inferInstance
    have hp : Takes true n took (Parser.skip 1 >>= fun _ => p) := by
      cases took with
      | false => exact hp.weaken
      | true => exact hp
    rw [hrun]
    exact seen.goes s hs hn

instance want {k : Token.Kind} [hk : Solid k] : Takes held n true (want k) := by
  refine asked (fun s h => ?_) fun s _ => ?_
  · simp only [h, beq_eq_false_iff_ne.mpr hk.ne.symm, Bool.false_eq_true, if_false]
    infer_instance
  · unfold take
    infer_instance

/-! ## Repetition -/

/-- A rule has one token less when it uses itself. -/
theorem recursive
    (h : ∀ m self, m ≤ n → Takes false (m - 1) took self → Takes false m took (rule self)) :
    Takes held n took (recursive rule) where
  goes s _ hn := by
    have hm : ∀ m ≤ n, Takes false m took (unfolded m rule) := by
      intro m
      induction m with
      | zero => exact fun _ => ⟨fun s _ hs => absurd hs (Nat.not_lt_zero _)⟩
      | succ m ih => exact fun hle => ⟨(h (m + 1) _ hle (ih (Nat.le_of_succ_le hle))).goes⟩
    exact (hm (s.tokens.length + 1) hn).goes s (Nat.zero_le _) (Nat.lt_succ_self _)

instance many {begins : Parser Bool} [h : Takes false n false begins] [i : Takes false n true x] :
    Takes held n false (many begins x) :=
  recursive fun _ _ hm _ =>
    have := h.mono hm
    have := i.mono hm
    inferInstance

instance manySeen {g : State → Bool} [Sees g] [h : Takes true n true x] :
    Takes held n false (Parser.many (Parser.ask g) x) :=
  recursive fun _ _ hm _ =>
    have := h.mono hm
    inferInstance

instance manyTaken [Sees fun s => fits (s.peek 0)] [h : Takes false (n - 1) false x] :
    Takes held n false (Parser.many (Parser.takeIf fits) x) :=
  recursive fun _ _ hm _ =>
    have := h.mono (Nat.sub_le_sub_right hm 1)
    inferInstance

instance commaList [Takes false n false x] :
    Takes held n false (commaList (Parser.takeIf fits) x) := by
  unfold Parser.commaList
  infer_instance

instance succeeds {p : Parser Bool} [h : ∀ n, Takes false n false p] :
    Takes held n false (succeeds p) where
  goes s _ _ := by
    have hp := (h (s.tokens.length + 1)).goes s (Nat.zero_le _) (Nat.lt_succ_self _)
    simp only [Parser.succeeds]
    revert hp
    cases p.run s with
    | error e => exact fun (he : e.gaveUp = false) => by simp [he, Goes]
    | ok r => exact fun _ => Nat.le_refl _

instance selecting {b : Bool} [h : Takes held n took p] : Takes held n took (selecting b p) where
  goes s hs hn := by
    have hp := h.goes { s with inSelection := b } hs hn
    simp only [Parser.selecting]
    revert hp
    cases p.run { s with inSelection := b } <;> exact id

end Takes

/-! ## Rules -/

set_option synthInstance.maxSize 1000

instance : Takes held n true identifier := by
  unfold identifier
  infer_instance

instance : Takes held n false terminator := by
  unfold terminator
  infer_instance

instance : Takes held n true wantAssign := by
  unfold wantAssign
  infer_instance

instance : Takes held n false pathRest := by
  unfold pathRest take
  infer_instance

instance : Takes held n false referencing := by
  unfold referencing
  infer_instance

instance : Takes held n false dimensions := by
  refine .manySeen (h := .behind (i := fun _ => .asking (h := fun t => ?_)))
  split <;> infer_instance

instance {s : Parser Scalar} [Takes false (n - 1) false s] : Takes held n false (typeArgsWith s) := by
  unfold typeArgsWith
  infer_instance

instance : Takes held n true scalar := by
  refine .recursive fun m self _ _ => .after (i := fun ref => .asked (fun s h => ?_) fun s _ => ?_)
  · simp [h]
    infer_instance
  · dsimp only
    infer_instance

instance : Takes held n false typeArgs := by
  unfold typeArgs
  infer_instance

instance : Takes held n false typeParams := by
  exact .recursive fun _ _ _ _ => inferInstance

instance : Takes held n true type := by
  exact .recursive fun _ _ _ _ => inferInstance

instance {t : Ty} : Takes held n false (nameScalar t) := by
  unfold nameScalar nameIfAny take
  split <;> infer_instance

instance : Takes held n true resultType := by
  unfold resultType resultLambdaParam nameIfAny take
  exact .recursive fun _ _ _ _ => inferInstance

instance : Takes held n true bindingName := by
  exact .recursive fun _ _ _ _ => inferInstance

section

variable {unary expr : Parser Expr} {x : Expr}

instance {links : List (BinaryOp × Expr)} : Takes held n false (chainRest.nest x links) := by
  induction links generalizing held x with
  | nil => exact inferInstanceAs (Takes held n false (pure x))
  | cons y links ih =>
    unfold chainRest.nest
    infer_instance

instance {is : List Expr} : Takes held n false (nestIndices x is) := by
  induction is generalizing held x with
  | nil => exact inferInstanceAs (Takes held n false (pure x))
  | cons i is ih =>
    unfold nestIndices
    infer_instance

instance : Takes held n true wantType := by
  unfold wantType take
  refine .asked (fun s h => ?_) fun s _ => inferInstance
  simp [h]
  infer_instance

instance [Takes false n true unary] : Takes held n false (chainRest unary x) := by
  refine .after (h := .many (i := .asking (h := fun s => ?_)))
  split <;> infer_instance

instance [h : Takes false n true unary] : Takes held n true (exprWith unary) := by
  unfold exprWith exprRestWith
  refine .recursive fun m self hm _ => ?_
  have := h.mono hm
  infer_instance

variable [Takes false (n - 1) true expr]

instance : Takes held n false (afterOperand expr x) := by
  refine .after (i := fun is => .after (i := fun x => .asking (h := fun s => ?_)))
  split <;> infer_instance

instance [Takes false (n - 1) true unary] : Takes held n true (operand unary expr) := by
  unfold operand nameOrCall keywordExpr newExpr typeWordExpr parenExpr argsWith callFollows take
  refine .asking (h := fun pos => .asked (fun s h => ?_) fun s _ => ?_)
  · have hliteral : Token.Kind.finish.isLiteral = false := rfl
    simp [h, hliteral]
    infer_instance
  · split
    · infer_instance
    split <;> infer_instance

end

instance : Takes held n true unaryExpr := by
  refine .recursive fun m self _ _ => .asking (h := fun pos => .asked (fun s h => ?_) fun s _ => ?_)
  · simp [stepOperator, Token.isOp, Token.is, h]
    infer_instance
  · dsimp only
    split <;> infer_instance

instance : Takes held n true expr := by
  unfold expr
  infer_instance

instance {x : Expr} : Takes held n false (exprRest x) := by
  unfold exprRest exprRestWith
  infer_instance

instance : Takes held n true condition := by
  unfold condition
  infer_instance

instance : Takes held n true typedLocal := by
  unfold typedLocal
  infer_instance

instance {pos : Pos} {x : Expr} : Takes held n false (exprStmtRest pos x) := by
  unfold exprStmtRest
  infer_instance

instance {pos : Pos} {x : Expr} : Takes held n false (operandStmt pos x) := by
  refine .asking (h := fun assigns => ?_)
  split <;> infer_instance

section

variable {body : Parser (List Stmt)} [h : Takes false (n - 1) false body]

instance : Takes held n false (otherwise body) := by
  refine .recursive fun m self hm _ => ?_
  have := h.mono (Nat.sub_le_sub_right hm 1)
  infer_instance

instance : Takes held n true (stmtWith body) := by
  unfold stmtWith keywordStmt typeWordStmt letStmt mutStmt identifierStmt isDeclaration take
  refine .asking (h := fun pos => .asked (fun s h => ?_) fun s _ => ?_)
  · simp only [h]
    infer_instance
  · split <;> infer_instance

instance : Takes held n false (stmtsWith body) := by
  refine .recursive fun m self hm _ => ?_
  have := h.mono (Nat.sub_le_sub_right hm 1)
  infer_instance

end

instance : Takes held n false body := by
  exact .recursive fun _ _ _ _ => inferInstance

instance {pos : Pos} {words : List String} {result : Ty} {name : String} :
    Takes held n true (methodRest pos words result name) := by
  unfold methodRest param
  infer_instance

instance {pos : Pos} {words : List String} {result : Ty} {name : String} :
    Takes held n false (fieldRest pos words name result) := by
  unfold fieldRest fieldEntry
  split <;> infer_instance

variable {c : Scope}

instance {δ : Type} {block list : Mark → List String → δ} :
    Takes held n true (modifiers block list c) := by
  unfold modifiers take
  infer_instance

instance {k : Nat} {name : String} : Takes held k false (membersUpTo name k c) := by
  induction k generalizing held c with
  | zero => exact ⟨fun _ _ h => absurd h (Nat.not_lt_zero _)⟩
  | succ k ih =>
    have (c : Scope) : Takes false (k + 1 - 1) false (membersUpTo name k c) := ih
    unfold membersUpTo member
    infer_instance

instance {name : String} : Takes held n false (members name c) where
  goes s hs _ := by
    have h : Takes held (s.tokens.length + 1) false (membersUpTo name (s.tokens.length + 1) c) :=
      inferInstance
    exact h.goes s hs (Nat.lt_succ_self _)

instance {t : Token} : Takes held n true (declaration t c) := by
  unfold declaration classDecl method directive
  generalize t.kind = k
  cases k <;> dsimp only <;> infer_instance

/-! ## Units -/

/-- The tokens of a session are shared out: each declaration takes tokens of its own behind semicolons,
and only semicolons stand between the last one and the end of the input. -/
inductive SharedOut : Session → List Decl → Prop
  | finish {c : Scope} {s : State} {front rest : List Token} (tokens : s.tokens = front ++ rest)
      (semicolons : ∀ t ∈ front, t.kind = .semicolon) (finish : ∀ t ∈ rest.head?, t.kind = .finish) :
      SharedOut (.reading c s) []
  | decl {c d : Scope} {s t : State} {x : Decl} {xs : List Decl} {front own : List Token}
      (next : Session.next (.reading c s) = (.decl x, .reading d t))
      (tokens : s.tokens = front ++ own ++ t.tokens)
      (semicolons : ∀ t ∈ front, t.kind = .semicolon) (own : own ≠ [])
      (others : SharedOut (.reading d t) xs) : SharedOut (.reading c s) (x :: xs)

/-- The answer is an error, the end of the input behind semicolons, or a declaration behind semicolons
that takes at least one token. -/
theorem next_spec (c : Scope) (s : State) :
    (∃ e, Session.next (.reading c s) = (.error e, .ended e.pos) ∧ e.gaveUp = false) ∨
      (∃ pos, Session.next (.reading c s) = (.finish pos, .ended pos) ∧ SharedOut (.reading c s) []) ∨
      ∃ x d t front own, Session.next (.reading c s) = (.decl x, .reading d t) ∧
        s.tokens = front ++ own ++ t.tokens ∧ (∀ t ∈ front, t.kind = .semicolon) ∧ own ≠ [] := by
  let u : State := { s with tokens := s.tokens.dropWhile (·.kind == .semicolon) }
  let front := s.tokens.takeWhile (·.kind == .semicolon)
  have htokens : s.tokens = front ++ u.tokens := takeWhile_append_dropWhile.symm
  have hfront : ∀ t ∈ front, t.kind = .semicolon := fun t ht =>
    beq_iff_eq.mp (all_eq_true.mp all_takeWhile t ht)
  have hrun : (decl c).run s = Parser.run (if (u.peek 0).kind == .finish then pure none else
      declaration (u.peek 0) c >>= fun r => pure (some r)) u := rfl
  simp only [Session.next, hrun]
  by_cases hend : (u.peek 0).kind = .finish
  · rw [hend]
    refine .inr (.inl ⟨u.pos, rfl, .finish htokens hfront fun t ht => ?_⟩)
    rw [State.peek, getD_eq_getElem?_getD, ← List.head?_eq_getElem?, ht] at hend
    exact hend
  · rw [if_neg (by simpa using hend), run_bind]
    have hgoes := (inferInstance : Takes false (u.tokens.length + 1) true (declaration (u.peek 0) c)).goes
      u (Nat.zero_le _) (Nat.lt_succ_self _)
    cases hr : (declaration (u.peek 0) c).run u with
    | error e =>
      rw [hr] at hgoes
      exact .inl ⟨e, rfl, hgoes⟩
    | ok r =>
      rw [hr] at hgoes
      obtain ⟨own, hown⟩ := ((declaration (u.peek 0) c).leads hr).tokens
      refine .inr (.inr ⟨r.1.1, r.1.2, r.2, front, own, rfl, ?_, hfront, ?_⟩)
      · rw [htokens, append_assoc, hown]
      · rintro rfl
        rw [← hown] at hgoes
        exact absurd hgoes (Nat.not_succ_le_self _)

/-- What is known of all that a session answers if there are questions enough. -/
theorem upTo_spec {s : State} (h : s.tokens.length < n) :
    (∀ e ∈ (Session.upTo n (.reading c s)).2.1, e.gaveUp = false) ∧
      ((Session.upTo n (.reading c s)).2.1 = none →
        SharedOut (.reading c s) (Session.upTo n (.reading c s)).1) ∧
      ∃ pos, (Session.upTo n (.reading c s)).2.2 = .ended pos := by
  induction n generalizing c s with
  | zero => exact absurd h (Nat.not_lt_zero _)
  | succ n ih =>
    rw [Session.upTo]
    obtain ⟨e, hnext, he⟩ | ⟨pos, hnext, hshared⟩ | ⟨x, d, t, front, own, hnext, htokens, hfront, hown⟩ :=
      next_spec c s
    · rw [hnext]
      exact ⟨by simpa using he, nofun, _, rfl⟩
    · rw [hnext]
      exact ⟨nofun, fun _ => hshared, _, rfl⟩
    · have hlength := congrArg List.length htokens
      have hpos := length_pos_iff.mpr hown
      simp only [length_append] at hlength
      obtain ⟨hgave, hshared, hended⟩ := ih (c := d) (s := t) (by omega)
      rw [hnext]
      exact ⟨hgave, fun hnone => .decl hnext htokens hfront hown (hshared hnone), hended⟩

/-! ## Looking ahead -/

/-- A parser that takes tokens, and does nothing else. -/
class OnlyTakes (p : Parser α) : Prop where
  eq : ∀ {s a t}, p.run s = .ok (a, t) → t = { s with tokens := t.tokens }

namespace OnlyTakes

variable {x p q : Parser α} {f : α → Parser β} {fits : Token → Bool}

instance bind [h : OnlyTakes x] [i : ∀ a, OnlyTakes (f a)] : OnlyTakes (x >>= f) where
  eq {s b t} ht := by
    rw [run_bind] at ht
    cases hr : x.run s with
    | error e =>
      rw [hr] at ht
      cases ht
    | ok r =>
      rw [hr] at ht
      rw [(i r.1).eq ht, h.eq hr]

instance pure {a : α} : OnlyTakes (Pure.pure a : Parser α) where
  eq h := by cases h; rfl

instance fail {m : String} : OnlyTakes (Parser.fail m : Parser α) where
  eq h := by cases h

instance ite {c : Prop} [Decidable c] [hp : OnlyTakes p] [hq : OnlyTakes q] :
    OnlyTakes (if c then p else q) := by
  split
  · exact hp
  · exact hq

instance ask {g : State → α} : OnlyTakes (ask g) where
  eq h := by cases h; rfl

instance skip {k : Nat} : OnlyTakes (skip k) where
  eq h := by cases h; rfl

instance take : OnlyTakes take := by
  unfold Parser.take
  infer_instance

instance takeIf : OnlyTakes (takeIf fits) := by
  unfold Parser.takeIf
  infer_instance

instance want {k : Token.Kind} : OnlyTakes (want k) := by
  unfold Parser.want
  infer_instance

theorem recursive
    (h : ∀ self, OnlyTakes self → OnlyTakes (rule self)) : OnlyTakes (recursive rule) where
  eq {s _ _} hr := by
    have hn : ∀ n, OnlyTakes (unfolded n rule) := by
      intro n
      induction n with
      | zero => exact ⟨fun h => by cases h⟩
      | succ n ih => exact ⟨(h _ ih).eq⟩
    exact (hn (s.tokens.length + 1)).eq hr

instance many {begins : Parser Bool} [OnlyTakes begins] [i : OnlyTakes x] :
    OnlyTakes (many begins x) :=
  recursive fun _ _ => inferInstance

instance commaList {closed : Parser Bool} [OnlyTakes closed] [OnlyTakes x] :
    OnlyTakes (commaList closed x) := by
  unfold Parser.commaList
  infer_instance

instance : OnlyTakes dimensions := by
  refine many (i := bind (i := fun _ => bind (i := fun t => ?_)))
  split <;> infer_instance

instance {p : Parser Scalar} [OnlyTakes p] : OnlyTakes (typeArgsWith p) := by
  unfold typeArgsWith
  infer_instance

instance : OnlyTakes scalar := by
  unfold scalar referencing pathRest
  exact recursive fun _ _ => inferInstance

instance : OnlyTakes typeArgs := by
  unfold typeArgs
  infer_instance

/-- A parser that only takes tokens leaves no trace when it has looked ahead. -/
theorem run_succeeds {p : Parser Bool} [hp : OnlyTakes p] (h : ∀ n, Takes false n false p) (s : State) :
    ∃ b, (succeeds p).run s = .ok (b, s) := by
  have hgoes := (h (s.tokens.length + 1)).goes s (Nat.zero_le _) (Nat.lt_succ_self _)
  simp only [Parser.succeeds]
  cases hr : p.run s with
  | error e =>
    rw [hr] at hgoes
    have he : e.gaveUp = false := hgoes
    exact ⟨false, by simp [he]⟩
  | ok r =>
    obtain ⟨b, t⟩ := r
    exact ⟨b, by rw [hp.eq hr]⟩

end OnlyTakes

end Parser

open Parser

/-- Reading a unit comes to an end for all tokens. Without an error, each token up to the end of the
input has been taken by one declaration or is a semicolon between declarations; nothing more is
answered behind the end or an error. Looking ahead has no effect. -/
theorem parseTokens_ends (file : String) (tokens : List Token) :
    (∀ e ∈ (parseTokens file tokens).error, e.gaveUp = false) ∧
      ((parseTokens file tokens).error = none →
        SharedOut (.reading {} { file := file, tokens := tokens }) (parseTokens file tokens).decls) ∧
      (∃ pos, (parseTokens file tokens).rest.next = (.finish pos, (parseTokens file tokens).rest)) ∧
      ∀ s, (∃ b, isDeclaration.run s = .ok (b, s)) ∧ ∃ b, callFollows.run s = .ok (b, s) := by
  obtain ⟨hgave, hshared, pos, hended⟩ := upTo_spec (c := {})
    (s := { file := file, tokens := tokens }) (Nat.lt_succ_self tokens.length)
  refine ⟨hgave, hshared, ⟨pos, ?_⟩, fun s => ⟨?_, ?_⟩⟩
  · have hrest : (parseTokens file tokens).rest = .ended pos := hended
    rw [hrest]
    rfl
  · exact OnlyTakes.run_succeeds inferInstance s
  · show ∃ b, Parser.run (if (s.peek 0).kind == .parenOpen then _ else _) s = .ok (b, s)
    split
    · exact ⟨true, rfl⟩
    split
    · exact OnlyTakes.run_succeeds inferInstance s
    · exact ⟨false, rfl⟩

end SsaCompiler
