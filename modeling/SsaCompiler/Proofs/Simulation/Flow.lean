import SsaCompiler.Proofs.Simulation.Stmt

/-!
# Conditional statements and loops

The ways of a conditional statement meet in a block behind it, where the machine waits until all ways
have been lowered. A loop goes back to its condition, which was lowered before its body: the machine
then stands again where it stood when it came to the loop, apart from the values of variables.
-/

namespace SsaCompiler.Simulation

open Ssa (ValueRef BlockRef)
open Core (Store Locals Eval)
open Lowering (Lowers Extends Expands Stage restBlock)
open Machine

variable {C : Context} {A : Act} {s t : LoweringState} {n : Nat} {σ : Store} {μ : Memory}
  {regs : Registers} {p : Primitive} {depth : Nat} {S : Site C depth} {F : Condition}
  {P R : List BlockRef} {cz : Lowering ValueRef} {body : Lowering Unit} {ez : Eval Int}
  {eb eo el : Eval (Option Int)} {nz nb : Nat} {after : Option BlockRef} {hasRest : Bool}

/-! ## Blocks of statements -/

theorem eq_some_of_restricted {l l' : Locals} {id : Nat} {a : Int}
    (h : (if (l id).isSome then l' id else none) = some a) : l' id = some a := by
  split at h
  · exact h
  · exact absurd h (by simp)

/-- The variables of a block are gone behind it. -/
theorem sim_inBlock [hF : Stable S.act.base F] (hb : FollowsStmt C depth body eb p 0) :
    Sim S P (Now S F n) body (Eval.inBlock eb) fun _ => Went S F n p := by
  rintro s σ _ r t c hstage hfs ⟨rel, keeps, holds⟩ hr hg
  rename_i b w fr
  have hrun := hb S P (Since S.act.base s w fr) n hstage hfs ⟨rel, keeps, .refl s, .refl ..⟩ hr hg
  refine hrun.inBlock fun a σ' z hz => ?_
  cases hz with
  | next now =>
    obtain ⟨rel', keeps', hext, hkept⟩ := now
    refine .next ⟨rel'.restrict fun id a ha => eq_some_of_restricted ha, keeps',
      hF.keep holds hext hkept fun id hid => ?_⟩
    by_contra hnone
    simp [hnone] at hid
  | leave leaving =>
    obtain ⟨returns, holds, steps, space, depth, objects, keeps⟩ := leaving
    exact .leave ⟨returns, holds, steps, space, depth, objects, keeps⟩

/-! ## Conditional statements -/

/-- Where the machine stands behind a way through a conditional statement: in the block where the ways
meet, unless it returns. -/
inductive Met (S : Site C depth) (F : Condition) (n : Nat) (p : Primitive) (after : Option BlockRef) :
    Option Int → LoweringState → Store → State → Prop where
  | wait {a : BlockRef} {t : LoweringState} {σ : Store} {z : State} (ha : after = some a)
      (waiting : Waiting S a F n t σ z) : Met S F n p after none t σ z
  | leave {a : Int} {t : LoweringState} {σ : Store} {z : State}
      (leaving : Leaving C S.act S.callers S.memory n p a σ z) : Met S F n p after (some a) t σ z

theorem sim_merge [Steady S.act.base F] {a : Option Int} :
    Sim S (R ++ (after.toList ++ P)) (Went S F n p a) (Lowering.merge after) (pure ())
      fun r _ => Met S F n p r a := by
  cases a with
  | some a => exact .gone fun | .leave leaving => .leave leaving
  | none =>
    refine .mono (I := Now S F n) (.opened ?_) (fun | .next now => now) id
    cases after with
    | some b =>
      simp only [Bool.false_eq_true, if_false, pure_bind]
      exact .next sim_br fun _ => .pure fun h => .wait rfl h
    | none => exact .next sim_newBlock fun b => .next sim_br fun _ => .pure fun h => .wait rfl h

theorem sim_otherWay [Steady S.act.base F] :
    Sim S P (Now S F n) (Lowering.otherWay after hasRest) (pure ()) fun r _ s σ z =>
      Now S F n s σ z ∧ (hasRest = false → r.1 = some r.2) := by
  cases hasRest with
  | true => exact .next sim_newBlock fun no => .pure fun h => ⟨h, by simp⟩
  | false =>
    cases after with
    | some b => exact .pure fun h => ⟨h, fun _ => rfl⟩
    | none => exact .next sim_newBlock fun b => .pure fun h => ⟨h, fun _ => rfl⟩

/-- The first way of a conditional statement. Where the machine goes the other way, it waits in the
block of the ways that follow, or in the one where the ways meet. -/
theorem sim_branch {α : Type} {f : Option BlockRef → BlockRef → Lowering α}
    {Q : α → Option Int → Assertion} [Stable S.act.base F] (hlz : Lowers C.functions cz nz)
    (hlb : Lowers C.functions body nb) (hz : Follows C depth cz ez .bool 0 1)
    (hb : FollowsStmt C depth body eb p 0)
    [∀ mid no, Expands S.env C.functions (restBlock hasRest no ++ (mid.toList ++ P)) (f mid no)]
    (hyes : ∀ mid no a, Sim S (restBlock hasRest no ++ (mid.toList ++ P)) (Met S F n p mid a)
      (f mid no) (pure a) Q)
    (hno : ∀ mid no, (hasRest = false → mid = some no) →
      Sim S (restBlock hasRest no ++ (mid.toList ++ P)) (Waiting S no F n) (f mid no) eo Q) :
    Sim S (after.toList ++ P) (Now S F n)
      (Lowering.branch after cz body hasRest >>= fun r => f r.1 r.2)
      (do if (← ez) ≠ 0 then Eval.inBlock eb else eo) Q := by
  rw [Lowering.branch_eq]
  simp only [bind_assoc, pure_bind]
  refine .next sim_newBlock fun yes => .next sim_otherWay fun r => .given fun hr => ?_
  have hmem : ∀ {mid : Option BlockRef}, (hasRest = false → mid = some r.2) →
      r.2 ∈ restBlock hasRest r.2 ++ (mid.toList ++ P) := by
    intro mid hmid
    cases hasRest with
    | true => exact List.mem_cons_self
    | false =>
      rw [hmid rfl]
      exact List.mem_cons_self
  have hwait : Waits r.2 (restBlock hasRest r.2 ++ (r.1.toList ++ P)) := ⟨hmem hr⟩
  have : Waits r.2 (restBlock hasRest r.2 ++ (yes :: (r.1.toList ++ P))) := ⟨by
    have := hwait.mem
    simp only [List.mem_append, List.mem_cons] at this ⊢
    exact this.imp_right .inr⟩
  refine .bind (hz S _ F n) fun c a => .next (sim_condBr fun h => h.2) fun _ => ?_
  by_cases ha : a = 0
  · rw [if_pos ha, if_neg (not_not.mpr ha)]
    refine .next sim_skip fun _ => .next sim_skip fun _ => ?_
    refine .next (sim_skip_of (φ := fun mid => hasRest = false → mid = some r.2) hwait.mem fun hm => ?_)
      fun mid => .given fun hmid => (hno mid r.2 hmid).mono (·.imp (fun h => h.1) (Nat.le_succ n)) id
    have hkeep : hasRest = false → _ = some r.2 := fun h =>
      Lowering.runs_merge_some (by rw [← hr h]; exact hm)
    exact ⟨hmem hkeep, hkeep⟩
  · rw [if_neg ha, if_pos ha]
    refine .next sim_enter fun _ => .seq ((sim_inBlock hb).mono (·.imp (fun h => h.1) (Nat.le_succ n))
      id) fun _ a => .next sim_merge fun mid => hyes mid r.2 a

/-! ## Loops -/

/-- Variables that were there earlier have the slots that they had. -/
theorem Vars.back {l₀ l : Locals} {μ₀ : Memory} {regs₀ : Registers} (h₀ : Vars C A s l₀ μ₀ regs₀)
    (hext : Extends s t) (hdom : ∀ id, (l id).isSome → (l₀ id).isSome)
    (h : Vars C A t l μ regs) : Vars C A s l μ regs := by
  intro id a ha
  obtain ⟨st, hst, -, hrest⟩ := h id a ha
  obtain ⟨a₀, ha₀⟩ := Option.isSome_iff_exists.mp (hdom id (by rw [ha]; rfl))
  obtain ⟨st₀, hst₀, hmem, -⟩ := h₀ id a₀ ha₀
  obtain rfl : st₀ = st := Option.some.inj ((hext.storage id st₀ hst₀).symm.trans hst)
  exact ⟨st₀, hst₀, hmem, hrest⟩

/-- A round of a loop. Behind it, the machine stands where it stood in front of it. -/
theorem sim_round [hF : Lasting S.act.base F] {test inner after c : BlockRef} {y : Unit} {z : State}
    (hlz : Lowers C.functions cz nz) (hlb : Lowers C.functions body nb)
    (hz : Follows C depth cz ez .bool 0 1) (hb : FollowsStmt C depth body eb p 0)
    (hstage : Stage S.act.func S.act.entry c (after :: inner :: test :: P) s)
    (hfs : s.functions = C.functions) (hw : Waiting S test F n s σ z)
    (hr : Runs (Lowering.rounds cz body test inner after) S.env s y t)
    (hg : C.Takes t)
    (hnext : ∀ σ z, Waiting S test F n s σ z → After C z el σ fun a => Went S F n p a t) :
    After C z (do
      if (← ez) ≠ 0 then
        match ← Eval.inBlock eb with
        | some r => return some r
        | none => el
      else return none) σ fun a => Went S F n p a t := by
  obtain ⟨rel, keeps, holds⟩ := hw
  rename_i b w fr
  let G := (Since S.act.base (s.standingAt test) w fr).and (Within σ)
  suffices main : Sim S (after :: inner :: test :: P) (Waiting S test G n)
      (Lowering.rounds cz body test inner after) _ fun _ a t' σ z => t' = t → Went S F n p a t' σ z from
    (main hstage hfs ⟨rel, keeps, ⟨.refl _, .refl ..⟩, fun _ => id⟩ hr hg).mono fun _ _ _ h => h rfl
  unfold Lowering.rounds
  refine .next sim_enter fun _ => .bind (hz S _ G n) fun c a => .next (sim_condBr fun h => h.2)
    fun _ => ?_
  by_cases ha : a = 0
  · rw [if_pos ha, if_neg (not_not.mpr ha)]
    refine .next sim_skip fun _ => .next sim_skip fun _ => .next sim_skip fun ended => ?_
    have behind {P : List BlockRef} : Sim S P (Waiting S after (G.and (Den C c .bool a)) (n + 1))
        (Lowering.build (.setInsertPoint after)) (pure none) fun _ a t' σ z =>
          t' = t → Went S F n p a t' σ z :=
      sim_enter.giving fun h _ =>
        .next (h.imp (fun h => hF.keep holds h.1.1.1 h.1.1.2) (Nat.le_succ n))
    split
    · exact .next sim_skip fun _ => behind
    · exact behind
  · rw [if_neg ha, if_pos ha]
    refine .next sim_enter fun _ => .bind ((sim_inBlock (F := G) hb).mono
      (·.imp (fun h => h.1) (Nat.le_succ n)) id) fun _ a => ?_
    cases a with
    | some a => exact .gone fun | .leave leaving => fun _ => .leave leaving
    | none =>
      refine .mono (I := Now S G n) (.opened ?_) (fun | .next now => now) id
      rintro s₁ σ₁ _ y₁ t₁ c₁ - - ⟨rel₁, keeps₁, ⟨hext, hkept⟩, hdom⟩ hr₁ hg₁
      obtain ⟨_, u, hbr, hset⟩ := runs_bind.mp hr₁
      obtain rfl := Lowering.runs_setInsertPoint.mp hset
      -- back to the condition, with the variables that were there before
      obtain ⟨w₂, fr₂, m₂, rel₂, -⟩ := rel₁.jump S.callers
        (rel₁.stands.ended (Lowering.ending_br test) hbr) hg₁ (hstage.waits test (by simp))
        hstage.stands hfs rel.grows fun μ regs => Vars.back (s := s.standingAt test) rel.vars hext hdom
      have hkept₂ := hkept.trans (m₂.kept.since hext.grows)
      exact After.head m₂.reaches ((hnext σ₁ _ ⟨rel₂, keeps₁.trans m₂.kept.memory,
        hF.keep holds (.refl _) hkept₂⟩).mono fun _ _ _ h ht => ht ▸ h)

/-- A loop starts with a jump to its condition. -/
theorem followsStmt_loop (hlz : Lowers C.functions cz nz) (hlb : Lowers C.functions body nb)
    (hround : ∀ (S : Site C depth) P F n test inner after [Lasting S.act.base F],
      Sim S (after :: inner :: test :: P) (Waiting S test F n)
        (Lowering.rounds cz body test inner after) el fun _ => Went S F n p) :
    FollowsStmt C depth (Lowering.loop cz body) el p 0 := fun S P F n _ => by
  have := Lowering.steps_rounds hlz hlb
  rw [Lowering.loop_eq]
  exact .next sim_newBlock fun test => .next sim_newBlock fun inner => .next sim_newBlock fun after =>
    .next sim_br fun _ => hround S P F n test inner after

end SsaCompiler.Simulation
