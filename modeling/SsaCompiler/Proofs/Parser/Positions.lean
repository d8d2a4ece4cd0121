import SsaCompiler.Parser.Statements
import SsaCompiler.Proofs.Tree.Grouping
import SsaCompiler.Tree.Outline

/-!
# Positions of expressions

An index, a selection and a step behind an operand stand where their first operands stand. Binary
operations get their positions while the chain is in the order of the source: each stands at the
operand in front of its operator. Precedence moves the nodes, but not their positions. So a binary
operation whose left side is another one does not stand at its first operand. Statements hand on what
the expressions in them have.
-/

namespace SsaCompiler

open List

/-- The last operand of a chain. -/
def Expr.last : Expr → Expr
  | .binary _ _ _ y => y.last
  | e => e

/-- A binary operation stands at the operand in front of its operator, other nodes at their first
operands if they begin with those. -/
def Node.InPlace : Node → Prop
  | .expr (.binary m _ x _) => m.pos = x.last.pos
  | .expr (.index m x _) | .expr (.selection m x _ _) | .expr (.unary m (.step _ true) x)
  | .stmt (.indexAssign _ m x _ _) => m.pos = x.pos
  | _ => True

mutual

/-- Whether all nodes of an outline are in place. -/
def Outline.Placed : Outline → Prop
  | .node n children => n.InPlace ∧ AllPlaced children

/-- Whether all nodes of several outlines are. -/
def Outline.AllPlaced : List Outline → Prop
  | [] => True
  | o :: os => o.Placed ∧ AllPlaced os

end

/-- Whether all nodes of a statement are in place. -/
abbrev Stmt.Placed (s : Stmt) : Prop :=
  (Outline.ofStmt s).Placed

theorem Outline.allPlaced_iff : ∀ {os : List Outline}, AllPlaced os ↔ ∀ o ∈ os, o.Placed
  | [] => by simp [AllPlaced]
  | o :: os => by simp [AllPlaced, allPlaced_iff]

theorem Outline.allPlaced_append {os os' : List Outline} (h : AllPlaced os) (h' : AllPlaced os') :
    AllPlaced (os ++ os') := by
  rw [allPlaced_iff] at h h' ⊢
  exact forall_mem_append.mpr ⟨h, h'⟩

namespace Expr

variable {e y : Expr} {es : List Expr} {m : Mark} {op : BinaryOp} {ls : List Link}

/-- Whether all nodes of an expression are in place. -/
abbrev Placed (e : Expr) : Prop :=
  (Outline.ofExpr e).Placed

theorem allPlaced (h : ∀ e ∈ es, e.Placed) : Outline.AllPlaced (Outline.ofExprs es) := by
  induction es with
  | nil => trivial
  | cons e es ih =>
    obtain ⟨he, hes⟩ := forall_mem_cons.mp h
    exact ⟨he, ih hes⟩

/-! ## Precedence -/

theorem placed_binary : (binary m op e y).Placed ↔ m.pos = e.last.pos ∧ e.Placed ∧ y.Placed :=
  ⟨fun h => ⟨h.1, h.2.1, h.2.2.1⟩, fun h => ⟨h.1, h.2.1, h.2.2, trivial⟩⟩

/-- A chain whose operators stand at the operands in front of them. -/
def InOrder : Expr → List Link → Prop
  | x, [] => x.Placed
  | x, ((m, _), y) :: ls => x.Placed ∧ m.pos = x.pos ∧ InOrder y ls

theorem inOrder_append (e : Expr) : InOrder e.first (e.links ++ ((m, op), y) :: ls) ↔
    e.Placed ∧ m.pos = e.last.pos ∧ InOrder y ls := by
  fun_induction links e generalizing m op y ls with
  | case1 n p x z ihx ihz =>
    rw [append_assoc, cons_append, first, ihx, ihz, placed_binary, last]
    simp only [and_assoc, and_left_comm]
  | case2 e h =>
    cases e with
    | binary => exact (h _ _ _ _ rfl).elim
    | _ => exact .rfl

/-- The positions depend on the chain only, not on how it is nested. -/
theorem placed_iff (e : Expr) : e.Placed ↔ InOrder e.first e.links := by
  fun_induction links e with
  | case1 m op x y _ ihy =>
    rw [first, inOrder_append, ← ihy, placed_binary, and_left_comm]
  | case2 e h =>
    rw [(alone_of_nil (links_eq_nil h)).1]
    exact .rfl

theorem placed_reassociate (he : e.Placed) : e.reassociate.Placed := by
  have h := groups_reassociate e
  rw [placed_iff] at he ⊢
  rwa [h.first, h.links]

/-- An expression that is no binary operation, with all nodes in place. -/
structure PlacedOperand (e : Expr) : Prop where
  placed : e.Placed
  last : e.last = e

end Expr

namespace Parser

open Expr (Placed PlacedOperand)

variable {α β : Type} {t : Token}

theorem bind_eq_ok {x : Parser α} {f : α → Parser β} {s t : State} {b : β} :
    (x >>= f).run s = .ok (b, t) ↔ ∃ a u, x.run s = .ok (a, u) ∧ (f a).run u = .ok (b, t) := by
  show (x.run s).bind (fun p => (f p.1).run p.2) = _ ↔ _
  cases x.run s with
  | error e => simp [Except.bind]
  | ok p => simp [Except.bind, Prod.ext_iff, and_assoc]

/-- What holds of all that a parser reads. -/
def Yields (x : Parser α) (Q : α → Prop) : Prop :=
  ∀ s a t, x.run s = .ok (a, t) → Q a

namespace Yields

variable {x : Parser α} {f : α → Parser β} {P : α → Prop} {Q : β → Prop}

theorem bind (hx : Yields x P) (hf : ∀ a, P a → Yields (f a) Q) : Yields (x >>= f) Q := by
  intro s b t h
  obtain ⟨a, u, hxr, hfr⟩ := bind_eq_ok.mp h
  exact hf a (hx s a u hxr) u b t hfr

theorem skip (hf : ∀ a, Yields (f a) Q) : Yields (x >>= f) Q :=
  bind (P := fun _ => True) (fun _ _ _ _ => trivial) fun a _ => hf a

theorem pure {b : β} (h : Q b) : Yields (pure b) Q := by
  intro s a t hr
  cases hr
  exact h

theorem pure_bind {a : α} (h : Yields (f a) Q) : Yields (Pure.pure a >>= f) Q :=
  fun s => h s

theorem fail {message : String} : Yields (Parser.fail message : Parser β) Q := by
  intro s a t hr
  cases hr

theorem mark {pos : Pos} {f : Mark → Parser β} (h : ∀ m : Mark, m.pos = pos → Yields (f m) Q) :
    Yields (Parser.mark pos >>= f) Q :=
  fun s => h ⟨s.nextId, pos⟩ rfl { s with nextId := s.nextId + 1 }

theorem recursive {rule : Parser β → Parser β} (h : ∀ self, Yields self Q → Yields (rule self) Q) :
    Yields (Parser.recursive rule) Q := by
  have hn : ∀ n, Yields (unfolded n rule) Q := by
    intro n
    induction n with
    | zero => exact fun _ _ _ hr => nomatch hr
    | succ n ih => exact h _ ih
  exact fun s => hn (s.tokens.length + 1) s

theorem many {begins : Parser Bool} (h : Yields x P) :
    Yields (Parser.many begins x) fun xs => ∀ a ∈ xs, P a := by
  refine recursive fun self hself => skip fun b => ?_
  split
  · exact h.bind fun a ha => hself.bind fun as has => pure (forall_mem_cons.mpr ⟨ha, has⟩)
  · exact pure (by simp)

theorem commaList {closed : Parser Bool} (h : Yields x P) :
    Yields (Parser.commaList closed x) fun xs => ∀ a ∈ xs, P a := by
  refine skip fun b => ?_
  split
  · exact pure (by simp)
  · exact h.bind fun a ha => (many (skip fun _ => h)).bind fun as has =>
      pure (forall_mem_cons.mpr ⟨ha, has⟩)

theorem selecting {inside : Bool} (h : Yields x P) : Yields (Parser.selecting inside x) P := by
  intro s a t hr
  dsimp only [Parser.selecting] at hr
  split at hr
  next hx =>
    cases hr
    exact h _ _ _ hx
  next => cases hr

end Yields

/-! ## Expressions -/

section

variable {unary expr : Parser Expr} {x : Expr} (hunary : Yields unary PlacedOperand)
  (hexpr : Yields expr Placed)

theorem placed_nest {links : List (BinaryOp × Expr)} (hx : x.PlacedOperand)
    (h : ∀ y ∈ links, y.2.PlacedOperand) : Yields (chainRest.nest x links) Placed := by
  induction links generalizing x with
  | nil => exact .pure hx.placed
  | cons y links ih =>
    obtain ⟨hy, hlinks⟩ := forall_mem_cons.mp h
    refine .mark fun m hm => (ih hy hlinks).bind fun z hz => .pure ⟨?_, hx.placed, hz, trivial⟩
    exact hm.trans (congrArg Expr.pos hx.last.symm)

theorem placed_nestIndices {is : List Expr} (hx : x.PlacedOperand) (his : ∀ i ∈ is, i.Placed) :
    Yields (nestIndices x is) PlacedOperand := by
  induction is generalizing x with
  | nil => exact .pure hx
  | cons i is ih =>
    obtain ⟨hi, his⟩ := forall_mem_cons.mp his
    exact .mark fun m hm => ih (x := .index m x i) ⟨⟨hm, hx.placed, hi, trivial⟩, rfl⟩ his

theorem placed_typeWordExpr : Yields (typeWordExpr t) PlacedOperand := by
  refine .skip fun pos => ?_
  split
  · exact .skip fun word => .skip fun name => .mark fun m hm => .pure ⟨⟨trivial, trivial⟩, rfl⟩
  split
  · exact .skip fun word => .skip fun name => .mark fun m hm => .pure ⟨⟨trivial, trivial⟩, rfl⟩
  · exact .fail

include hexpr

theorem placed_args : Yields (argsWith expr) fun es => ∀ e ∈ es, e.Placed :=
  .skip fun _ => .commaList hexpr

theorem placed_nameOrCall : Yields (nameOrCall expr) PlacedOperand := by
  refine .skip fun pos => .skip fun first => .skip fun path => .skip fun calls => ?_
  split
  · refine .skip fun generics => (placed_args hexpr).bind fun es hes => ?_
    exact .mark fun m hm => .pure ⟨⟨trivial, Expr.allPlaced hes⟩, rfl⟩
  · exact .mark fun m hm => .pure ⟨⟨trivial, trivial⟩, rfl⟩

theorem placed_newExpr : Yields (newExpr expr) PlacedOperand := by
  refine .skip fun pos => .skip fun word => .skip fun ref => ?_
  refine .skip fun first => .skip fun path => .skip fun generics => .skip fun bracket => ?_
  split
  · refine hexpr.bind fun size hsize => .skip fun close => ?_
    exact .mark fun m hm => .pure ⟨⟨trivial, hsize, trivial⟩, rfl⟩
  refine .skip fun next => ?_
  split
  · refine (placed_args hexpr).bind fun es hes => ?_
    exact .mark fun m hm => .pure ⟨⟨trivial, Expr.allPlaced hes⟩, rfl⟩
  · exact .mark fun m hm => .pure ⟨⟨trivial, trivial⟩, rfl⟩

theorem placed_afterOperand (hx : x.PlacedOperand) : Yields (afterOperand expr x) PlacedOperand := by
  refine (Yields.many (hexpr.bind fun i hi => .skip fun close => .pure hi)).bind fun is his => ?_
  refine (placed_nestIndices hx his).bind fun y hy => .skip fun s => ?_
  split
  · split
    · exact .pure hy
    · exact .skip fun step => .mark fun m hm => .pure ⟨⟨hm, hy.placed, trivial⟩, rfl⟩
  · exact .pure hy

include hunary

theorem placed_exprRest (hx : x.PlacedOperand) : Yields (exprRestWith unary expr x) Placed := by
  have hchain : Yields (chainRest unary x) Placed := by
    refine .bind (.many (P := fun y => y.2.PlacedOperand) (.skip fun s => ?_)) fun links hlinks =>
      placed_nest hx hlinks
    split
    · exact .skip fun operator => hunary.bind fun y hy => .pure hy
    · exact .fail
  refine hchain.bind fun y hy => .skip fun selects => ?_
  have hplaced := Expr.placed_reassociate hy
  split
  · refine hexpr.selecting.bind fun z hz => .skip fun colon => hexpr.bind fun w hw => ?_
    exact .mark fun m hm => .pure ⟨hm, hplaced, hz, hw, trivial⟩
  · exact .pure hplaced

theorem placed_parenExpr : Yields (parenExpr unary expr) PlacedOperand := by
  refine .skip fun pos => .skip fun paren => .skip fun next => ?_
  split
  · refine .skip fun type => .skip fun close => hunary.bind fun y hy => ?_
    exact .mark fun m hm => .pure ⟨⟨trivial, hy.placed, trivial⟩, rfl⟩
  refine hexpr.selecting.bind fun y hy => .skip fun next => ?_
  split
  · refine (Yields.many hexpr).bind fun es hes => .skip fun close => ?_
    exact .mark fun m hm => .pure ⟨⟨trivial, hy, Expr.allPlaced hes⟩, rfl⟩
  · exact .skip fun close => .mark fun m hm => .pure ⟨⟨trivial, hy, trivial⟩, rfl⟩

theorem placed_keywordExpr : Yields (keywordExpr unary expr t) PlacedOperand := by
  refine .skip fun pos => ?_
  split
  · exact placed_newExpr hexpr
  split
  · exact .skip fun word => .skip fun type => .mark fun m hm => .pure ⟨⟨trivial, trivial⟩, rfl⟩
  split
  · refine .skip fun word => .skip fun paren => ?_
    split
    · refine .skip fun type => .skip fun close => ?_
      exact .mark fun m hm => .pure ⟨⟨trivial, trivial⟩, rfl⟩
    · refine hunary.bind fun y hy => ?_
      exact .mark fun m hm => .pure ⟨⟨trivial, hy.placed, trivial⟩, rfl⟩
  · exact .fail

theorem placed_operand : Yields (operand unary expr) PlacedOperand := by
  refine .skip fun pos => .skip fun next => ?_
  split
  · exact .skip fun word => .mark fun m hm => .pure ⟨⟨trivial, trivial⟩, rfl⟩
  split
  · exact placed_nameOrCall hexpr
  · exact placed_keywordExpr hunary hexpr
  · exact placed_typeWordExpr
  · exact placed_parenExpr hunary hexpr
  · refine .skip fun bracket => (Yields.commaList hexpr).bind fun es hes => ?_
    exact .mark fun m hm => .pure ⟨⟨trivial, Expr.allPlaced hes⟩, rfl⟩
  · exact .fail

omit hexpr in
theorem placed_exprWith : Yields (exprWith unary) Placed :=
  .recursive fun _ hself => hunary.bind fun _ hx => placed_exprRest hunary hself hx

end

theorem placed_unaryExpr : Yields unaryExpr PlacedOperand := by
  refine .recursive fun self hself => .skip fun pos => .skip fun s => ?_
  have hfront (op : UnaryOp) (n : Nat) (h : ∀ m x, (Node.expr (.unary m op x)).InPlace) : Yields
      (do skip n; let x ← self; return .unary (← mark pos) op x) PlacedOperand :=
    .skip fun operator => hself.bind fun x hx => .mark fun m hm =>
      .pure ⟨⟨h m x, hx.placed, trivial⟩, rfl⟩
  have hexpr := placed_exprWith hself
  dsimp only
  split
  · exact hfront (.step _ false) 2 fun _ _ => trivial
  split
  · exact hfront .neg 1 fun _ _ => trivial
  split
  · exact hfront .not 1 fun _ _ => trivial
  · exact (placed_operand hself hexpr).bind fun x hx => placed_afterOperand hexpr hx

theorem placed_expr : Yields expr Placed :=
  placed_exprWith placed_unaryExpr

/-! ## Statements -/

theorem placed_condition : Yields condition Placed := by
  refine .skip fun paren => placed_expr.bind fun x hx => ?_
  exact .skip fun close => .pure hx

section

variable {pos : Pos}

theorem placed_ending {make : Mark → Stmt} (h : ∀ m, (make m).Placed) :
    Yields (do terminator; return make (← mark pos)) Stmt.Placed := by
  exact .skip fun semicolon => .mark fun m hm => .pure (h m)

/-- A statement that ends with a value. -/
theorem placed_value {make : Mark → Expr → Stmt} (h : ∀ m x, x.Placed → (make m x).Placed) :
    Yields (do let x ← expr; terminator; return make (← mark pos) x) Stmt.Placed :=
  placed_expr.bind fun x hx => placed_ending fun m => h m x hx

theorem placed_letStmt : Yields letStmt Stmt.Placed := by
  refine .skip fun pos => .skip fun word => .skip fun paren => ?_
  split
  · exact .skip fun names => .skip fun sign => placed_value fun m x hx => ⟨trivial, hx, trivial⟩
  refine .skip fun name => .skip fun assigns => ?_
  split
  · exact .skip fun sign => placed_value fun m x hx => ⟨trivial, hx, trivial⟩
  · exact placed_ending fun m => ⟨trivial, trivial⟩

theorem placed_mutStmt : Yields mutStmt Stmt.Placed := by
  refine .skip fun pos => .skip fun word => .skip fun next => .skip fun assigns => ?_
  split
  · exact .skip fun name => .skip fun sign => placed_value fun m x hx => ⟨trivial, hx, trivial⟩
  refine .skip fun type => .skip fun name => .skip fun assigns => ?_
  dsimp only
  split
  · refine .skip fun sign => placed_expr.bind fun x hx => .pure_bind ?_
    exact placed_ending fun m => ⟨trivial, hx, trivial⟩
  · exact .pure_bind (placed_ending fun m => ⟨trivial, trivial⟩)

theorem placed_typedLocal : Yields typedLocal Stmt.Placed := by
  refine .skip fun pos => .skip fun type => .skip fun name => .skip fun assigns => ?_
  split
  · exact .skip fun sign => placed_value fun m x hx => ⟨trivial, hx, trivial⟩
  · exact placed_ending fun m => ⟨trivial, trivial⟩

theorem placed_exprStmtRest {x : Expr} (hx : x.PlacedOperand) :
    Yields (exprStmtRest pos x) Stmt.Placed := by
  refine (placed_exprRest placed_unaryExpr placed_expr hx).bind fun y hy => ?_
  exact placed_ending fun m => ⟨trivial, hy, trivial⟩

theorem placed_operandStmt {x : Expr} (hx : x.PlacedOperand) :
    Yields (operandStmt pos x) Stmt.Placed := by
  refine .skip fun assigns => ?_
  split
  · obtain ⟨hm, ha, hi, -⟩ := hx.placed
    exact .skip fun sign => placed_value fun m y hy =>
      ⟨hm, ⟨trivial, ha, hi, trivial⟩, hy, trivial⟩
  · exact placed_exprStmtRest hx

theorem placed_identifierStmt : Yields identifierStmt Stmt.Placed := by
  refine .skip fun declares => ?_
  split
  · exact placed_typedLocal
  refine .skip fun pos => .skip fun s => .skip fun assigns => ?_
  split
  · exact .skip fun name => .skip fun sign => placed_value fun m x hx => ⟨trivial, hx, trivial⟩
  refine .skip fun assigns => ?_
  split
  · refine .skip fun first => .skip fun path => .skip fun sign => ?_
    exact placed_value fun m x hx => ⟨trivial, hx, trivial⟩
  · exact placed_unaryExpr.bind fun x hx => placed_operandStmt hx

theorem placed_keywordStmt : Yields (keywordStmt t) Stmt.Placed := by
  refine .skip fun pos => ?_
  split
  · refine .skip fun word => .skip fun next => ?_
    dsimp only
    split
    · exact .pure_bind (placed_ending fun m => ⟨trivial, trivial⟩)
    · refine placed_expr.bind fun x hx => .pure_bind ?_
      exact placed_ending fun m => ⟨trivial, hx, trivial⟩
  split
  · exact .skip fun word => .skip fun name => placed_ending fun m => ⟨trivial, trivial⟩
  · exact placed_unaryExpr.bind fun x hx => placed_exprStmtRest hx

theorem placed_typeWordStmt : Yields (typeWordStmt t) Stmt.Placed := by
  unfold typeWordStmt
  split
  · exact placed_letStmt
  split
  · exact placed_mutStmt
  refine .skip fun next => .skip fun assigns => ?_
  split
  · refine .skip fun pos => .skip fun word => .skip fun name => .skip fun sign => ?_
    exact placed_value fun m x hx => ⟨trivial, hx, trivial⟩
  · exact placed_typedLocal

variable {body : Parser (List Stmt)}
  (hbody : Yields body fun ss => Outline.AllPlaced (Outline.ofStmts ss))

include hbody

theorem placed_otherwise :
    Yields (otherwise body) fun r => Outline.AllPlaced (Outline.ofOtherwise r) := by
  refine .recursive fun self hself => ?_
  have hrest : Yields (do
      if ← takeIf (·.is .keyword "else") then
        let pos ← Parser.pos
        if ← takeIf (·.is .keyword "if") then
          let cond ← condition
          let stmts ← body
          let rest ← self
          return .elseIf (← mark pos) cond stmts rest
        else
          let stmts ← body
          return .final (← mark pos) stmts
      else
        return .none) fun r => Outline.AllPlaced (Outline.ofOtherwise r) := by
    refine .skip fun more => ?_
    split
    · refine .skip fun pos => .skip fun branches => ?_
      split
      · refine placed_condition.bind fun c hc => hbody.bind fun ss hss => hself.bind fun r hr => ?_
        exact .mark fun m hm =>
          .pure ⟨⟨trivial, hc, Outline.allPlaced_append hss hr⟩, trivial⟩
      · exact hbody.bind fun ss hss => .mark fun m hm => .pure ⟨⟨trivial, hss⟩, trivial⟩
    · exact .pure trivial
  refine .skip fun next => .skip fun word => ?_
  split
  · exact .skip fun semicolon => hrest
  · exact hrest

theorem placed_stmtWith : Yields (stmtWith body) Stmt.Placed := by
  refine .skip fun pos => .skip fun t => ?_
  split
  · split
    · refine .skip fun word => placed_condition.bind fun c hc => hbody.bind fun ss hss => ?_
      refine (placed_otherwise hbody).bind fun r hr => ?_
      exact .mark fun m hm => .pure ⟨trivial, hc, Outline.allPlaced_append hss hr⟩
    split
    · refine .skip fun word => placed_condition.bind fun c hc => hbody.bind fun ss hss => ?_
      exact .mark fun m hm => .pure ⟨trivial, hc, hss⟩
    · exact placed_keywordStmt
  · exact placed_typeWordStmt
  · exact placed_identifierStmt
  · exact placed_unaryExpr.bind fun x hx => placed_exprStmtRest hx

theorem placed_stmtsWith :
    Yields (stmtsWith body) fun ss => Outline.AllPlaced (Outline.ofStmts ss) := by
  refine .recursive fun self hself => .skip fun close => ?_
  split
  · exact .pure trivial
  refine .skip fun semicolon => ?_
  split
  · exact hself
  refine .skip fun t => ?_
  dsimp only
  split
  · exact .bind (P := fun _ => False) .fail fun _ h => h.elim
  · refine (placed_stmtWith hbody).bind fun s hs => hself.bind fun ss hss => ?_
    exact .pure ⟨hs, hss⟩

end

/-- All nodes of a body that is read are in place. -/
theorem placed_body : Yields body fun ss => Outline.AllPlaced (Outline.ofStmts ss) := by
  exact .recursive fun self hself => .skip fun brace => placed_stmtsWith hself

end Parser

end SsaCompiler
