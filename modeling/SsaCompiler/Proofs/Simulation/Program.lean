import SsaCompiler.Proofs.Simulation.Call

/-!
# The machine follows the evaluator

By induction on the fuel of the evaluator, the machine follows all evaluations of sound programs: of
expressions, arguments, calls and statements.
-/

namespace SsaCompiler.Simulation

open Lowering
open Ssa (ValueRef BlockRef)
open Core (Eval ExprTy)
open Lowering (Lowers restBlock)
open Machine

variable {C : Context} {p q : Primitive} {depth fuel : Nat} {dv : Lowering.Defaults} {result : Ty}
  {body : List Core.Stmt} {rest : Core.Otherwise} {after : Option BlockRef}

/-- Every method of the program has a function that was made for it, and calls go to the methods that
they name. -/
structure Ready (C : Context) : Prop where
  callable : ∀ m ∈ C.methods, ∃ f e p,
    C.functions.find? (fun d => d.method.same m.origin) = some f ∧ Callable C m f.func e p
  called : ∀ g m, C.setting.known g → C.methods.find? (fun m => m.origin.same g) = some m →
    m.origin = g

/-- The machine follows all evaluations with some fuel. -/
structure Correct (C : Context) (fuel : Nat) : Prop where
  expr : ∀ {depth dv x p}, Core.Expr.Sound C.setting x → x.type.primitive? = some p →
    Follows C depth (Lowering.expr dv x) (Core.evalExpr C.methods fuel depth x) p 0 1
  args : ∀ {depth dv xs ts}, Core.SoundArgs C.setting xs ts →
    FollowsAll C depth (Lowering.arguments (Lowering.operands dv xs) ts)
      (Core.evalArgs C.methods fuel depth xs ts) ts
  call : ∀ {depth m f e p as vs} (S : Site C depth) P F n [Stable S.act.base F], f ∈ C.functions →
    Callable C m f.func e p →
    F.Entails (Args C vs m.origin.method.paramTypes as) →
    Sim S P (Now S F (n + 1)) (Lowering.build (.call f.func vs))
      (Core.evalCall C.methods fuel depth m as) fun r a => Now S (F.and (Den C r p a)) n
  stmt : ∀ {depth dv x result p}, Core.Stmt.Sound C.setting result x → result.primitive? = some p →
    FollowsStmt C depth (Lowering.stmt dv x) (Core.evalStmt C.methods fuel depth x) p 0
  stmts : ∀ {depth dv xs result p}, Core.SoundStmts C.setting result xs →
    result.primitive? = some p →
    FollowsStmt C depth (Lowering.stmts dv xs) (Core.evalStmts C.methods fuel depth xs) p 0
  otherwise : ∀ {depth dv x result p after no} (S : Site C depth) P F n [Stable S.act.base F],
    Core.Otherwise.Sound C.setting result x → result.primitive? = some p →
    (Lowering.follows x = false → after = some no) →
    Sim S (restBlock (Lowering.follows x) no ++ (after.toList ++ P)) (Waiting S no F n)
      (Lowering.otherwise dv after no x) (Core.evalOtherwise C.methods fuel depth x) (Met S F n p)
  loop : ∀ {depth dv z body result p} (S : Site C depth) P F n test inner after
    [Lasting S.act.base F], Core.Expr.Sound C.setting z → z.type.primitive? = some .bool →
    Core.SoundStmts C.setting result body → result.primitive? = some p →
    Sim S (after :: inner :: test :: P) (Waiting S test F n)
      (Lowering.rounds (Lowering.expr dv z) (Lowering.stmts dv body) test inner after)
      (Core.evalLoop C.methods fuel depth z body) fun _ => Went S F n p

/-- Without fuel there is nothing to follow. -/
theorem correct_zero (C : Context) : Correct C 0 where
  expr _ _ _ _ _ _ _ := by
    rw [Core.evalExpr]
    exact .stuck
  args _ _ _ _ _ _ := by
    rw [Core.evalArgs]
    exact .stuck
  call _ _ _ _ _ _ _ _ := by
    rw [Core.evalCall]
    exact .stuck
  stmt _ _ _ _ _ _ _ := by
    rw [Core.evalStmt]
    exact .stuck
  stmts _ _ _ _ _ _ _ := by
    rw [Core.evalStmts]
    exact .stuck
  otherwise _ _ _ _ _ _ _ _ := by
    rw [Core.evalOtherwise]
    exact .stuck
  loop _ _ _ _ _ _ _ _ _ _ _ _ := by
    rw [Core.evalLoop]
    exact .stuck

/-! ## Expressions -/

theorem eq_of_ofPrimitive (h : (ExprTy.ofPrimitive q).primitive? = some p) : p = q :=
  Option.some.inj (h.symm.trans (Core.primitive?_ofPrimitive q))

/-- Constructs pay for their code from the price of an expression. -/
theorem follows_node {i j : Nat} {cx : Lowering ValueRef} {ex : Eval Int}
    (h : Follows C depth cx ex p i j) (hi : i ≤ Core.nodePrice)
    (hij : i + 1 ≤ Core.nodePrice + j) :
    Follows C depth cx (do Eval.spend Core.nodePrice; ex) p 0 1 :=
  follows_spend (h.mono hi hij)

theorem Correct.callExpr (h : Correct C fuel) (hC : Ready C) {f : Core.Callee}
    {args : List Core.Expr} (hx : Core.Expr.Sound C.setting (.call f args))
    (hp : f.result.primitive? = some p) :
    Follows C depth (Lowering.expr dv (.call f args)) (do
      let xs ← Core.evalArgs C.methods fuel depth args f.params
      match C.methods.find? fun m => m.origin.same f.method with
      | some m => Core.evalCall C.methods fuel depth m xs
      | none => Eval.stuck) p 1 0 := by
  obtain ⟨⟨hknown, hparams, hresult⟩, -, -, hargs⟩ := hx
  intro S P F n _
  obtain ⟨mf, hmf⟩ := C.complete f.method hknown
  have := lowers_function f.owner f.key hmf
  have := lowers_args dv C.complete hargs
  refine .next (M := fun i _ s σ z => Now S F (n + 1) s σ z ∧ i = mf.func) ?_ fun i => .given fun hi => ?_
  · intro s σ z r t c _ hfs hnow hr _
    obtain ⟨rfl, rfl⟩ := (runs_function (hfs ▸ hmf)).mp hr
    exact After.pure ⟨hnow, rfl⟩
  subst hi
  refine .bind (h.args hargs S P F (n + 1)) fun vs as => ?_
  cases hm : C.methods.find? fun m => m.origin.same f.method with
  | none => exact .stuck
  | some m =>
    have horigin := hC.called f.method m hknown hm
    obtain ⟨mf', e, p', hmf', hcall⟩ := hC.callable m (List.mem_of_find?_eq_some hm)
    rw [horigin] at hmf'
    obtain rfl : mf' = mf := Option.some.inj (hmf'.symm.trans hmf)
    obtain rfl : p' = p := by
      have := hcall.primitive
      rw [horigin, ← hresult, hp] at this
      exact (Option.some.inj this).symm
    rw [hparams, ← horigin]
    refine (h.call S P _ n (List.mem_of_find?_eq_some hmf) hcall fun h => h.2).mono id fun h => ?_
    exact h.imp (fun h => ⟨h.1.1, h.2⟩) le_rfl

theorem Correct.operand (h : Correct C fuel) {x : Core.Expr} {target : ExprTy}
    (hx : x.Sound C.setting) (hty : x.type.type.isPlain) (hq : target.primitive? = some q)
    (hplain : q.isPlain) : Follows C depth ((Lowering.operand dv x).as target)
      (do Eval.coerce x.type target (← Core.evalExpr C.methods fuel depth x)) q 0 0 := by
  obtain ⟨p, hp, hplain'⟩ := Ty.exists_of_isPlain hty
  exact follows_as (lowers_expr dv C.complete hx) (h.expr hx hp) hp hq hplain' hplain

/-- The machine follows an expression with one more unit of fuel. -/
theorem Correct.exprSucc (h : Correct C fuel) (hC : Ready C) {x : Core.Expr}
    (hx : x.Sound C.setting) (hp : x.type.primitive? = some p) :
    Follows C depth (Lowering.expr dv x) (Core.evalExpr C.methods (fuel + 1) depth x) p 0 1 := by
  have lower : ∀ {y : Core.Expr}, y.Sound C.setting →
      Lowers C.functions (Lowering.expr dv y) y.places :=
    fun hy => lowers_expr dv C.complete hy
  cases x with
  | int q i =>
    obtain rfl := eq_of_ofPrimitive hp
    rw [Lowering.expr, Core.evalExpr]
    exact follows_node (follows_int hx.1 hx.2) (by decide) (by decide)
  | var vr =>
    obtain rfl : C.setting.type vr.id = p := Option.some.inj (hx.2.symm.trans hp)
    rw [Lowering.expr, Core.evalExpr]
    exact follows_node follows_var (by decide) (by decide)
  | call f args =>
    rw [Core.evalExpr]
    exact follows_node (h.callExpr hC hx hp) (by decide) (by decide)
  | cast q q' x =>
    obtain rfl := eq_of_ofPrimitive hp
    rw [Lowering.expr, Core.evalExpr]
    exact follows_node (follows_cast (lower hx.2.2.2) (h.expr hx.2.2.2 hx.2.2.1) hx.1 hx.2.1)
      (by decide) (by decide)
  | neg q x =>
    obtain rfl := eq_of_ofPrimitive hp
    rw [Lowering.expr, Core.evalExpr, Primitive.isFloat_of_isPlain hx.1]
    exact follows_node (follows_neg (lower hx.2.2.2) (h.expr hx.2.2.2 hx.2.2.1) hx.1 hx.2.1)
      (by decide) (by decide)
  | not x =>
    obtain rfl := eq_of_ofPrimitive hp
    rw [Lowering.expr, Core.evalExpr]
    exact follows_node (follows_not (lower hx.2) (h.expr hx.2 hx.1)) (by decide) (by decide)
  | step vr q up after =>
    obtain rfl := eq_of_ofPrimitive hp
    rw [Lowering.expr, Core.evalExpr]
    exact follows_node (follows_step hx.2.1 hx.2.2.1 hx.2.2.2) (by decide) (by decide)
  | logical op x y =>
    obtain rfl := eq_of_ofPrimitive hp
    rw [Lowering.expr, Core.evalExpr]
    exact follows_node (follows_logical (lower hx.2.2.1) (lower hx.2.2.2)
      (h.expr hx.2.2.1 hx.1) (h.expr hx.2.2.2 hx.2.1)) (by decide) (by decide)
  | same op x y =>
    obtain rfl := eq_of_ofPrimitive hp
    rw [Lowering.expr, Core.evalExpr]
    exact follows_node (follows_same (lower hx.2.2.1) (lower hx.2.2.2)
      (h.expr hx.2.2.1 hx.1) (h.expr hx.2.2.2 hx.2.1) hx.1 hx.2.1) (by decide) (by decide)
  | compare op q q' x y =>
    obtain ⟨hq, hq', htx, hty, hx, hy⟩ := hx
    obtain rfl := eq_of_ofPrimitive hp
    rw [Lowering.expr, Core.evalExpr]
    exact follows_node (follows_compare (lower hx) (lower hy) (h.expr hx htx) (h.expr hy hty) hq
      hq') (by decide) (by decide)
  | arith op q q' x y =>
    obtain ⟨hop, hq, hq', hqb, hqb', htx, hty, hx, hy⟩ := hx
    obtain rfl := eq_of_ofPrimitive hp
    rw [Lowering.expr, Core.evalExpr]
    exact follows_node (follows_arith (lower hx) (lower hy) (h.expr hx htx) (h.expr hy hty) hq
      hq' hop hqb hqb') (by decide) (by decide)
  | selection ty z x y =>
    obtain ⟨hty, hz, htx, hty', hsz, hsx, hsy⟩ := hx
    obtain ⟨p', hp', hplain⟩ := Ty.exists_of_isPlain hty
    obtain rfl : p' = p := Option.some.inj (hp'.symm.trans hp)
    rw [Lowering.expr, Core.evalExpr]
    exact follows_node (follows_selection hp hplain (lower hsz) (lowers_as htx hty (lower hsx))
      (lowers_as hty' hty (lower hsy)) (h.expr hsz hz) (h.operand hsx htx hp hplain)
      (h.operand hsy hty' hp hplain)) (by decide) (by decide)
  | _ => simp [Core.Expr.Sound] at hx

theorem Correct.argsSucc (h : Correct C fuel) {xs : List Core.Expr} {ts : List Ty}
    (hx : Core.SoundArgs C.setting xs ts) :
    FollowsAll C depth (Lowering.arguments (Lowering.operands dv xs) ts)
      (Core.evalArgs C.methods (fuel + 1) depth xs ts) ts := by
  match xs, ts, hx with
  | [], [], _ =>
    rw [Core.evalArgs, Lowering.operands, Lowering.arguments]
    · exact followsAll_nil
    all_goals simp
  | x :: xs, ty :: ts, hx =>
    obtain ⟨htx, hty, hsx, hsxs⟩ := hx
    obtain ⟨p, hp, hplain⟩ := Ty.exists_of_isPlain hty
    have hx : Follows C depth ((Lowering.operand dv x).as (.val ty)) _ p 0 0 :=
      h.operand hsx htx hp hplain
    have hcons := followsAll_cons hp hplain (lowers_operand dv C.complete htx
      (show (ExprTy.val ty).type.isPlain from hty) hsx) hx
      (lowers_args dv C.complete hsxs) (h.args hsxs)
    simp only [bind_assoc] at hcons
    rw [Core.evalArgs, Lowering.operands, Lowering.arguments]
    exact hcons

/-! ## Statements -/

/-- A way through a conditional statement and those that follow it. -/
theorem Correct.ways (h : Correct C fuel) {S : Site C depth} {P : List BlockRef} {F : Condition}
    {n : Nat} [Stable S.act.base F] {z : Core.Expr} (hsz : z.Sound C.setting)
    (hz : z.type.primitive? = some .bool) (hsb : Core.SoundStmts C.setting result body)
    (hsr : rest.Sound C.setting result) (hp : result.primitive? = some p) :
    Sim S (after.toList ++ P) (Now S F n) (Lowering.ways dv after z body rest) (do
      if (← Core.evalExpr C.methods fuel depth z) ≠ 0 then
        Eval.inBlock (Core.evalStmts C.methods fuel depth body)
      else Core.evalOtherwise C.methods fuel depth rest) (Met S F n p) := by
  have := steps_otherwise dv C.complete hsr
  refine sim_branch (lowers_expr dv C.complete hsz) (lowers_stmts dv C.complete hsb)
    (h.expr hsz hz) (h.stmts hsb hp) (fun mid no a => ?_) fun mid no hmid =>
    h.otherwise S P F n hsr hp hmid
  cases a with
  | some a => exact .gone fun | .leave leaving => .leave leaving
  | none =>
    -- the ways that follow are skipped
    intro s σ z r t c hstage hfs hmet hr hg
    cases hmet with
    | @wait b _ _ _ ha waiting =>
      subst ha
      have hwait : Waits b (restBlock (Lowering.follows rest) no ++ ((some b).toList ++ P)) :=
        inferInstance
      refine ((sim_skip_of (φ := (· = some b)) hwait.mem fun hr => ?_).giving fun h =>
        .wait h.2 h.1) hstage hfs waiting hr hg
      obtain rfl := runs_otherwise_some hr
      exact ⟨List.mem_cons_self, rfl⟩

section

variable (h : Correct C fuel)

include h

theorem Correct.branchStmt {z : Core.Expr} {body : List Core.Stmt}
    {rest : Core.Otherwise} (hx : Core.Stmt.Sound C.setting result (.branch z body rest))
    (hp : result.primitive? = some p) :
    FollowsStmt C depth (Lowering.stmt dv (.branch z body rest)) (do
      if (← Core.evalExpr C.methods fuel depth z) ≠ 0 then
        Eval.inBlock (Core.evalStmts C.methods fuel depth body)
      else Core.evalOtherwise C.methods fuel depth rest) p 0 := by
  obtain ⟨hz, hsz, hsb, hsr⟩ := hx
  intro S P F n _
  have := steps_ways (lowers_expr dv C.complete hsz)
    (lowers_stmts dv C.complete hsb) (steps_otherwise dv C.complete hsr)
  rw [stmt_branch]
  show Sim S (Option.toList none ++ P) _ _ _ _
  refine .seq (h.ways hsz hz hsb hsr hp) fun after a => ?_
  cases after with
  | none =>
    refine .gone fun hmet => ?_
    cases hmet with
    | wait ha _ => exact absurd ha (by simp)
    | leave leaving => exact .leave leaving
  | some b =>
    cases a with
    | none => exact (sim_enter.mono (fun | .wait rfl waiting => waiting) id).giving fun h => .next h
    | some a => exact .gone fun | .leave leaving => .leave leaving

/-- The machine follows a statement with one more unit of fuel. -/
theorem Correct.stmtSucc {x : Core.Stmt}
    (hx : x.Sound C.setting result) (hp : result.primitive? = some p) :
    FollowsStmt C depth (Lowering.stmt dv x) (Core.evalStmt C.methods (fuel + 1) depth x) p
      0 := by
  have price : ∀ {i : Nat} {cu : Lowering Unit} {eu : Eval (Option Int)},
      FollowsStmt C depth cu eu p i → i ≤ Core.nodePrice →
      FollowsStmt C depth cu (do Eval.spend Core.nodePrice; eu) p 0 :=
    fun h hi => followsStmt_spend h hi
  cases x with
  | expr x =>
    obtain ⟨q, hq, -⟩ := hx.type_isResult
    rw [Lowering.stmt, Core.evalStmt, effect_eq hx]
    exact price (followsStmt_expr (lowers_expr dv C.complete hx) (h.expr hx hq))
      (by decide)
  | declare vr =>
    rw [Lowering.stmt, Core.evalStmt]
    exact price (followsStmt_declare hx) (by decide)
  | bind vr x =>
    obtain ⟨hv, hty, hx⟩ := hx
    have hop : Follows C depth ((Lowering.operand dv x).as vr.type) _ _ 0 0 :=
      h.operand hx hty hv.2 hv.isPlain_type
    have hbind := followsStmt_bind (p := p) hv (lowers_operand dv C.complete hty
      (Lowering.Var.Sound.type_isPlain hv) hx) hop
    simp only [bind_assoc] at hbind
    rw [Lowering.stmt, Core.evalStmt, bindLocal_eq hv]
    exact price hbind (by decide)
  | assign vr x =>
    obtain ⟨hv, hty, hx⟩ := hx
    have hop : Follows C depth ((Lowering.operand dv x).as vr.type) _ _ 0 0 :=
      h.operand hx hty hv.2 hv.isPlain_type
    have hassign := followsStmt_assign (p := p) hv (lowers_operand dv C.complete hty
      (Lowering.Var.Sound.type_isPlain hv) hx) hop
    simp only [bind_assoc] at hassign
    rw [Lowering.stmt, Core.evalStmt]
    exact price hassign (by decide)
  | branch z body rest =>
    rw [Core.evalStmt]
    exact price (h.branchStmt hx hp) (by decide)
  | loop z body =>
    obtain ⟨hz, hsz, hsb⟩ := hx
    rw [Lowering.stmt, Core.evalStmt]
    exact price (followsStmt_loop (lowers_expr dv C.complete hsz)
      (lowers_stmts dv C.complete hsb) fun S P F n test inner after _ =>
        h.loop S P F n test inner after hsz hz hsb hp) (by decide)
  | retVoid =>
    obtain rfl : p = .void := Option.some.inj (hp.symm.trans hx)
    rw [Lowering.stmt, Core.evalStmt]
    exact price (i := 0) (fun S P F n _ => sim_leave ending_retVoid fun _ => .nothing rfl rfl)
      (by decide)
  | ret x ty =>
    obtain ⟨rfl, hplain, hty, hx⟩ := hx
    obtain ⟨p', hp', hplain'⟩ := Ty.exists_of_isPlain hplain
    obtain rfl : p' = p := Option.some.inj (hp'.symm.trans hp)
    have hop : Follows C depth ((Lowering.operand dv x).as (.val ty)) _ p' 0 0 :=
      h.operand hx hty hp hplain'
    have hret := followsStmt_ret (lowers_operand dv C.complete hty
      (show (ExprTy.val ty).type.isPlain from hplain) hx) hop
    simp only [bind_assoc] at hret
    rw [Lowering.stmt, Core.evalStmt, ret_eq hplain]
    exact price hret (by decide)
  | _ => simp [Core.Stmt.Sound] at hx

theorem Correct.stmtsSucc {xs : List Core.Stmt}
    (hx : Core.SoundStmts C.setting result xs) (hp : result.primitive? = some p) :
    FollowsStmt C depth (Lowering.stmts dv xs) (Core.evalStmts C.methods (fuel + 1) depth xs) p
      0 := by
  cases xs with
  | nil =>
    rw [Lowering.stmts, Core.evalStmts]
    exact fun S P F n _ => .pure fun h => .next h
  | cons x xs =>
    rw [Lowering.stmts, Core.evalStmts]
    exact followsStmt_seq (lowers_stmt dv C.complete hx.1)
      (lowers_stmts dv C.complete hx.2) (h.stmt hx.1 hp) (h.stmts hx.2 hp)

/-- The machine follows the ways behind a first branch with one more unit of fuel. -/
theorem Correct.otherwiseSucc {S : Site C depth} {P : List BlockRef}
    {F : Condition} {n : Nat} [Stable S.act.base F] {x : Core.Otherwise} {no : BlockRef}
    (hx : x.Sound C.setting result) (hp : result.primitive? = some p)
    (hno : Lowering.follows x = false → after = some no) :
    Sim S (restBlock (Lowering.follows x) no ++ (after.toList ++ P)) (Waiting S no F n)
      (Lowering.otherwise dv after no x) (Core.evalOtherwise C.methods (fuel + 1) depth x)
      (Met S F n p) := by
  cases x with
  | none =>
    rw [Lowering.otherwise, Core.evalOtherwise]
    exact .pure fun h => .wait (hno rfl) h
  | elseIf z body rest =>
    obtain ⟨hz, hsz, hsb, hsr⟩ := hx
    have := steps_ways (lowers_expr dv C.complete hsz)
      (lowers_stmts dv C.complete hsb) (steps_otherwise dv C.complete hsr)
    rw [otherwise_elseIf, Core.evalOtherwise]
    show Sim S (no :: (after.toList ++ P)) _ _ _ _
    exact .next sim_enter fun _ => h.ways hsz hz hsb hsr hp
  | final body =>
    have := lowers_stmts dv C.complete hx
    rw [Lowering.otherwise, Core.evalOtherwise]
    show Sim S (no :: (after.toList ++ P)) _ _ _ _
    refine .next sim_enter fun _ => .seq (sim_inBlock (h.stmts hx hp)) fun _ a => ?_
    exact (sim_merge (R := [])).giving id

/-- Whatever the machine follows with some fuel, it follows with more. -/
theorem Correct.succ (hC : Ready C) : Correct C (fuel + 1) where
  expr hx hp := h.exprSucc hC hx hp
  args hx := h.argsSucc hx
  call _ _ _ _ _ hf hm hargs := sim_call hf hm hargs fun _ _ => h.stmts hm.sound.body hm.primitive
  stmt hx hp := h.stmtSucc hx hp
  stmts hx hp := h.stmtsSucc hx hp
  otherwise _ _ _ _ _ hx hp hno := h.otherwiseSucc hx hp hno
  loop S P F n test inner after _ hsz hz hsb hp s σ z r t c hstage hfs hw hr hg := by
    rw [Core.evalLoop]
    exact sim_round (lowers_expr _ C.complete hsz) (lowers_stmts _ C.complete hsb)
      (h.expr hsz hz) (h.stmts hsb hp) hstage hfs hw hr hg fun _ _ hw' =>
        h.loop S P F n test inner after hsz hz hsb hp hstage hfs hw' hr hg

end

/-- The machine follows all evaluations of a program that is ready. -/
theorem Ready.correct (hC : Ready C) (fuel : Nat) : Correct C fuel := by
  induction fuel with
  | zero => exact correct_zero C
  | succ fuel ih => exact ih.succ hC

end SsaCompiler.Simulation
