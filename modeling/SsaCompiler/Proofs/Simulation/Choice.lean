import SsaCompiler.Proofs.Simulation.Rules

/-!
# Expressions that choose their way

The machine follows the evaluation of operands, conjunctions, disjunctions and conditional
expressions, if it follows the evaluation of what they are made of.
-/

namespace SsaCompiler.Simulation

open Ssa (ValueRef BlockRef)
open Core (Eval ExprTy)
open Lowering (Lowers Operand Known)
open Machine

variable {C : Context} {depth : Nat} {p q : Primitive} {cx cy cz : Lowering ValueRef}
  {ex ey ez : Eval Int} {nx ny nz : Nat}

/-- Wherever the code of a computation stands, the machine follows an evaluation when it executes it.
Of `i` units to spare, `j` are left. -/
def Follows (C : Context) (depth : Nat) (cx : Lowering ValueRef) (ev : Eval Int) (p : Primitive)
    (i j : Nat) : Prop :=
  ∀ (S : Site C depth) (P : List BlockRef) (F : Condition) (n : Nat) [Stable S.act.base F],
    Sim S P (Now S F (n + i)) cx ev fun r a => Now S (F.and (Den C r p a)) (n + j)

theorem follows_spend {i : Nat} (h : Follows C depth cx ex p i 1) :
    Follows C depth cx (do Eval.spend i; ex) p 0 1 :=
  fun S P F n _ => (h S P F n).spend

/-- Units that are not needed are left over. -/
theorem Follows.mono {i i' j j' : Nat} (h : Follows C depth cx ex p i j) (hi : i ≤ i')
    (hij : i + j' ≤ i' + j) : Follows C depth cx ex p i' j' :=
  fun S P F n _ => (h S P F (n + (i' - i))).mono (·.imp id (by omega)) (·.imp id (by omega))

theorem follows_cast (hl : Lowers C.functions cx nx) (hx : Follows C depth cx ex p 0 1)
    (hp : p.isPlain) (hq : q.isPlain) :
    Follows C depth (do Lowering.castPrimitive (← cx) p q) (do return Core.converted p q (← ex)) q
      0 0 := fun S P F n _ => by
  have : Known p.isPlain := ⟨hp⟩
  have : Known q.isPlain := ⟨hq⟩
  refine .bind (hx S P F n) fun v a => (sim_cast fun h => h.2).giving fun h => ?_
  exact h.imp (fun h => ⟨h.1.1, h.2⟩) (Nat.le_refl n)

theorem follows_as {source target : ExprTy} (hl : Lowers C.functions cx nx)
    (hx : Follows C depth cx ex p 0 1) (hp : source.primitive? = some p)
    (hq : target.primitive? = some q) (hplain : p.isPlain) (hqlain : q.isPlain) :
    Follows C depth ((Operand.mk source cx).as target) (do Eval.coerce source target (← ex)) q 0 0 := by
  have hcoerce : (do Eval.coerce source target (← ex)) =
      (do return Core.converted p q (← ex) : Eval Int) := by
    unfold Eval.coerce
    rw [hp, hq]
  rw [hcoerce, Lowering.as_eq hp hq]
  exact follows_cast hl hx hplain hqlain

/-! ## Conjunctions and disjunctions -/

/-- The value of a conjunction or disjunction of which the first operand has been evaluated. -/
def decided (op : BinaryOp) (a : Int) (ey : Eval Int) : Eval Int :=
  if (a != 0) == (op == .and) then ey else return a

theorem follows_logical {op : BinaryOp} (hlx : Lowers C.functions cx nx) (hly : Lowers C.functions cy ny)
    (hx : Follows C depth cx ex .bool 0 1) (hy : Follows C depth cy ey .bool 0 1) :
    Follows C depth (Lowering.logical op cx cy) (do decided op (← ex) ey) .bool 2 1 :=
  fun S P F n _ => by
  have := Lowering.steps_lastWay hly
  refine .next sim_alloca fun slot => .bind (hx S _ _ (n + 2)) fun v a => ?_
  refine .next (sim_store rfl (fun h => h.2) fun h => h.1.2) fun _ => ?_
  refine .next sim_newBlock fun second => .next sim_newBlock fun after => ?_
  have rest : ∀ d, d = (if (a != 0) == (op == .and) then second else after) →
      Sim S (after :: second :: P) (Waiting S d (((F.and (Temp C S.act slot 1)).and (Den C v .bool a)).and
        (Content slot .bool a)) (n + 2)) (Lowering.lastWay cy slot second after) (decided op a ey)
        fun r a => Now S (F.and (Den C r .bool a)) (n + 1) := by
    rintro _ rfl
    unfold decided
    split
    · refine .next sim_enter fun _ => .seq ((hy S _ _ (n + 2)).mono (·.imp (fun h => h.1) le_rfl) id)
        fun w a' => ?_
      refine .next (sim_store rfl (fun h => h.2) fun h => h.1.1.2) fun _ => ?_
      refine .next sim_br fun _ => .next sim_enter fun _ => ?_
      exact (sim_load rfl (fun h => h.1.1.1.1) (fun h => h.2) fun h => h.1.1.1.2).giving id
    · refine .next sim_skip fun _ => .next sim_skip fun _ => .next sim_skip fun _ => ?_
      refine .next sim_skip fun _ => .next sim_enter fun _ => ?_
      exact (sim_load rfl (fun h => h.1.1.1) (fun h => h.2) fun h => h.1.1.2).giving id
  -- the first operand decides where the machine goes on
  split
  next hop => exact .next (sim_condBr fun h => h.1.2) fun _ => rest _ (by by_cases a = 0 <;> simp [*])
  next hop => exact .next (sim_condBr fun h => h.1.2) fun _ => rest _ (by by_cases a = 0 <;> simp [*])

/-! ## Conditional expressions -/

theorem follows_selection {ty : ExprTy} {ox oy : Operand} (hp : ty.primitive? = some p)
    (hplain : p.isPlain) (hlz : Lowers C.functions cz nz)
    (hlx : Lowers C.functions (ox.as ty) nx) (hly : Lowers C.functions (oy.as ty) ny)
    (hz : Follows C depth cz ez .bool 0 1) (hx : Follows C depth (ox.as ty) ex p 0 0)
    (hy : Follows C depth (oy.as ty) ey p 0 0) :
    Follows C depth (Lowering.selection ty cz ox oy) (do if (← ez) ≠ 0 then ex else ey) p 2 1 :=
  fun S P F n _ => by
  have : Known (p.bits ≤ 64) := ⟨p.bits_le⟩
  have := Lowering.steps_lastWay hly
  refine .of_runs (.next sim_alloca fun slot => ?_) (Lowering.runs_exprType hp hplain).mp
  refine .next sim_newBlock fun yes => .next sim_newBlock fun no => .next sim_newBlock fun after => ?_
  refine .bind (hz S _ _ (n + 2)) fun c a => .next (sim_condBr fun h => h.2) fun _ => ?_
  by_cases ha : a = 0
  · rw [if_pos ha, if_neg (not_not.mpr ha)]
    refine .next sim_skip fun _ => .next sim_skip fun _ => .next sim_skip fun _ => ?_
    refine .next sim_skip fun _ => .next sim_enter fun _ => .seq (hy S _ _ (n + 3)) fun w i => ?_
    refine .next (sim_store hplain (fun h => h.2) fun h => h.1.1.2) fun _ => ?_
    refine .next sim_br fun _ => .next sim_enter fun _ => ?_
    exact (sim_load hplain (fun h => h.1.1.1.1) (fun h => h.2) fun h => h.1.1.1.2).giving id
  · rw [if_neg ha, if_pos ha]
    refine .next sim_enter fun _ => .seq (hx S _ _ (n + 3)) fun v i => ?_
    refine .next (sim_store hplain (fun h => h.2) fun h => h.1.1.2) fun _ => .next sim_br fun _ => ?_
    refine .next sim_skip fun _ => .next sim_skip fun _ => .next sim_skip fun _ => ?_
    refine .next sim_skip fun _ => .next sim_enter fun _ => ?_
    exact (sim_load hplain (fun h => h.1.1.1.1) (fun h => h.2) fun h => h.1.1.1.2).giving id

end SsaCompiler.Simulation
