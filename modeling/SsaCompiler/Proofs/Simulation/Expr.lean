import SsaCompiler.Proofs.Simulation.Choice

/-!
# Expressions that are computed in one block

The machine follows the evaluation of constants, variables, counting, and operations with one or two
operands, if it follows the evaluation of the operands.
-/

namespace SsaCompiler.Simulation

open Ssa (ValueRef)
open Core (Eval ExprTy)
open Lowering (Lowers Known Steps)
open Machine

variable {C : Context} {depth : Nat} {p q : Primitive} {i : Int} {cx cy : Lowering ValueRef}
  {ex ey : Eval Int} {nx ny : Nat} {op : BinaryOp}

/-! ## Constants and variables -/

theorem follows_int (hp : p.isPlain) (hi : p.Holds i) :
    Follows C depth (Lowering.build (.constInt p.machineType i)) (pure i) p 0 0 :=
  fun _ _ _ _ _ => (sim_const rfl hp hi).giving id

theorem follows_var {v : Core.Var} :
    Follows C depth (Lowering.readVar v) (Eval.read v) (C.setting.type v.id) 1 0 := fun S P F n _ => by
  refine .next sim_storageOf fun st => (sim_read fun h => h.2).mono id fun h => ?_
  exact h.imp (fun h => ⟨h.1.1, h.2⟩) le_rfl

theorem follows_step {v : Core.Var} {up after : Bool} (hp : p = C.setting.type v.id)
    (hplain : p.isPlain) (hb : p ≠ .bool) : Follows C depth (Lowering.step v up after) (do
      let old ← Eval.read v
      let next := p.reduce (if up then old + 1 else old - 1)
      Eval.update v next
      return if after then old else next) p 4 0 := fun S P F n _ => by
  subst hp
  refine .next sim_storageOf fun st => .bind (sim_read fun h => h.2) fun old a => ?_
  refine .typeOf (fun h => h.2) ?_
  refine .next (sim_const rfl hplain (Primitive.holds_one hplain hb)) fun one => ?_
  refine .next (sim_arith .add rfl hplain hb (fun h => h.1.2) fun h => h.2).silent fun sum => ?_
  generalize hnew : (C.setting.type v.id).reduce (if up then a + 1 else a - 1) = new
  -- the new value is stored, and one of the two is the result
  have stored : ∀ {F' next} [Stable S.act.base F'],
      F'.Entails (((F.and (Stored v.id st)).and (Den C old (C.setting.type v.id) a)).and
        (Den C next (C.setting.type v.id) new)) →
      Sim S P (Now S F' (n + 1)) (do
        Lowering.build (.store next st.addr)
        return if after then old else next) (do
        Eval.update v new
        return if after then a else new) fun r a =>
          Now S (F.and (Den C r (C.setting.type v.id) a)) n := by
    intro F' next _ hF'
    refine .bind (sim_update (fun h => (hF' h).1.1.2) fun h => (hF' h).2) fun _ _ => .pure fun h => ?_
    refine h.imp (fun h => ⟨(hF' h.1).1.1.1, ?_⟩) le_rfl
    cases after with
    | true => exact (hF' h.1).1.2
    | false => exact (hF' h.1).2
  cases up with
  | true =>
    subst hnew
    refine (stored fun h => ⟨h.1.1, h.2⟩).mono (·.imp id (Nat.le_succ _)) id
  | false =>
    subst hnew
    exact .next (sim_arith .sub rfl hplain hb (fun h => h.1.1.2) fun h => h.1.2).silent fun next =>
      stored fun h => ⟨h.1.1.1, h.2⟩

/-! ## Operations with one operand -/

theorem follows_neg (hl : Lowers C.functions cx nx) (hx : Follows C depth cx ex p 0 1)
    (hp : p.isPlain) (hb : p ≠ .bool) :
    Follows C depth (do Lowering.build (.unary .neg (← cx))) (do return p.reduce (-(← ex))) p 0 0 :=
  fun S P F n _ => .bind (hx S P F n) fun _ _ => (sim_neg hp hb fun h => h.2).giving fun h =>
    h.imp (fun h => ⟨h.1.1, h.2⟩) le_rfl

theorem follows_not (hl : Lowers C.functions cx nx) (hx : Follows C depth cx ex .bool 0 1) :
    Follows C depth (do Lowering.build (.unary .not (← cx))) (do return Core.ofBool ((← ex) == 0)) .bool
      0 0 :=
  fun S P F n _ => .bind (hx S P F n) fun _ _ => (sim_not fun h => h.2).giving fun h =>
    h.imp (fun h => ⟨h.1.1, h.2⟩) le_rfl

/-! ## Operations with two operands -/

/-- Truth values are compared as they are. -/
theorem follows_same {tx ty : ExprTy} (hlx : Lowers C.functions cx nx)
    (hly : Lowers C.functions cy ny) (hx : Follows C depth cx ex .bool 0 1)
    (hy : Follows C depth cy ey .bool 0 1) (hp : tx.primitive? = some .bool)
    (hq : ty.primitive? = some .bool) :
    Follows C depth (Lowering.same op ⟨tx, cx⟩ ⟨ty, cy⟩) (do
      let i ← ex
      let j ← ey
      return Core.ofBool (Core.compared op i j)) .bool 1 0 := fun S P F n _ => by
  rw [Lowering.same_eq hp hq]
  refine .bind (hx S P F (n + 1)) fun v i => .bind (hy S P _ (n + 2)) fun w j => ?_
  refine (sim_compare rfl (fun h => h.1.2) fun h => h.2).giving fun h => ?_
  exact h.imp (fun h => ⟨h.1.1.1, h.2⟩) (Nat.le_add_right n 2)

section

variable (hlx : Lowers C.functions cx nx) (hly : Lowers C.functions cy ny)
  (hx : Follows C depth cx ex p 0 1) (hy : Follows C depth cy ey q 0 1) (hp : p.isPlain)
  (hq : q.isPlain)

include hlx hly hx hy hp hq

/-- Two operands, each followed by its conversion, and code that computes with both. -/
theorem follows_converting {g : ValueRef → ValueRef → Lowering ValueRef} {eg : Int → Int → Eval Int}
    {o : Primitive} [∀ env P v w, Steps env C.functions P (g v w) (fun _ => P) 0]
    (h : ∀ {v w i j} (S : Site C depth) P F n [Stable S.act.base F],
      F.Entails (Den C v (p.promote q) (Core.converted p (p.promote q) i)) →
      F.Entails (Den C w (p.promote q) (Core.converted q (p.promote q) j)) →
      Sim S P (Now S F (n + 1)) (g v w) (eg i j) fun r a => Now S (F.and (Den C r o a)) n) :
    Follows C depth (Lowering.converting p q cx cy g) (do eg (← ex) (← ey)) o 1 0 :=
  fun S P F n _ => by
  have : Known p.isPlain := ⟨hp⟩
  have : Known q.isPlain := ⟨hq⟩
  have : Known (p.promote q).isPlain := ⟨Primitive.isPlain_promote hp hq⟩
  refine .bind (hx S P F (n + 1)) fun v i => .next (sim_cast fun h => h.2) fun v' => ?_
  refine .bind (hy S P _ (n + 1)) fun w j => .next (sim_cast fun h => h.2) fun w' => ?_
  refine (h S P _ n (fun h => h.1.1.2) fun h => h.2).mono id fun h => ?_
  exact h.imp (fun h => ⟨h.1.1.1.1.1, h.2⟩) le_rfl

theorem follows_compare : Follows C depth (Lowering.compare op p q cx cy) (do
      let i ← ex
      let j ← ey
      return Core.ofBool (Core.compared op (Core.converted p (p.promote q) i)
        (Core.converted q (p.promote q) j))) .bool 1 0 := by
  rw [Lowering.compare_eq hp hq]
  refine follows_converting hlx hly hx hy hp hq fun S P F n _ hv hw => ?_
  exact (sim_compare (Primitive.isPlain_promote hp hq) hv hw).giving id

theorem follows_arith (hop : Core.isArithmetic op) (hpb : p ≠ .bool) (hqb : q ≠ .bool) :
    Follows C depth (Lowering.arith op p q cx cy) (do
      let i ← ex
      let j ← ey
      Eval.arith op (p.promote q) (Core.converted p (p.promote q) i)
        (Core.converted q (p.promote q) j)) (p.promote q) 1 0 := by
  rw [Lowering.arith_eq hop hp hq]
  refine follows_converting hlx hly hx hy hp hq fun S P F n _ hv hw => ?_
  exact sim_arith op hop (Primitive.isPlain_promote hp hq) (Primitive.promote_ne_bool hpb hqb) hv hw

end

end SsaCompiler.Simulation
