import SsaCompiler.Proofs.Simulation.Expr

/-!
# Statements

The machine follows the execution of statements, if it follows the evaluation of the expressions and
statements that they are made of. Behind a statement that does not return, the machine stands where
lowering goes on. Behind one that does, it is about to leave the function.
-/

namespace SsaCompiler.Simulation

open Ssa (ValueRef BlockRef)
open Core (Store Locals Eval)
open Lowering (Stands Adds Extends Consted Ended Lowers Operand BindShape)
open Machine

variable {C : Context} {A : Act} {b : BlockRef} {s t : LoweringState} {n : Nat} {σ : Store}
  {w : World} {fr : Frame} {callers : List Frame} {v x : ValueRef} {p q : Primitive} {i : Int}
  {depth : Nat} {μ μ' : Memory} {P : List BlockRef} {vr : Core.Var}

/-! ## Returns -/

/-- The machine is about to leave a function with a result. -/
inductive Leaving (C : Context) (A : Act) (callers : List Frame) (μ : Memory) (n : Nat)
    (p : Primitive) (a : Int) (σ : Store) : State → Prop where
  | intro {w : World} {fr : Frame} (returns : Returns C.module fr (Word.ofInt a)) (holds : p.Holds a)
      (steps : w.steps + n + σ.budget ≤ C.total)
      (space : w.memory.segments.size + A.held + σ.room < 2 ^ 32) (depth : w.depth = A.depth)
      (objects : ∀ a ∈ fr.slots, ∃ k, A.base ≤ k ∧ k < w.memory.segments.size ∧
        a = Memory.startOf (k + 1))
      (keeps : Memory.Keeps A.base μ w.memory) :
      Leaving C A callers μ n p a σ ⟨w, fr :: callers⟩

/-- What a block that returns gives back. -/
inductive GivesBack (C : Context) (s : LoweringState) (regs : Registers) (p : Primitive) (a : Int) :
    List (Option ValueRef) → Prop where
  | value {v : ValueRef} (hv : Denotes C regs v p a) (hlt : v < s.module.values.size) :
      GivesBack C s regs p a [some v]
  | nothing (hp : p = .void) (ha : a = 0) : GivesBack C s regs p a []

theorem Rel.leave {controls : List (Option ValueRef)} (callers : List Frame)
    (h : Rel C A b s n σ w fr) (g : Ended A.func A.entry b s .ret controls [] t)
    (hg : C.Takes t) (hv : GivesBack C s fr.regs p i controls) :
    ∃ z, Reaches C.program C.limit ⟨w, fr :: callers⟩ z ∧
      Leaving C A callers w.memory n p i σ z := by
  obtain ⟨w', fr', hm, hfin, -⟩ := h.finish callers g hg
  have hends := endsAs_of_ended g hg
  have hreturns : Returns C.module fr' (Word.ofInt i) := by
    refine ⟨by rw [hfin.func], hfin.rest, hfin.block ▸ hends.kind, ?_⟩
    rw [hfin.block, hends.controls]
    cases hv with
    | value hv hlt => exact .inl ⟨_, rfl, hm.kept.reads hv.reads hlt⟩
    | nothing _ hi => exact .inr ⟨rfl, by rw [hi]; rfl⟩
  have hholds : p.Holds i := by
    cases hv with
    | value hv _ => exact hv.holds
    | nothing hp hi => rw [hp, hi]; exact Primitive.holds_zero .void
  exact ⟨_, hm.reaches, hreturns, hholds, hfin.steps, hfin.space, hfin.sits.depth,
    hfin.sits.objects, hm.kept.memory⟩

theorem Leaving.since {a : Int} {z : State} (h : Leaving C A callers μ' n p a σ z)
    (hk : Memory.Keeps A.base μ μ') : Leaving C A callers μ n p a σ z := by
  obtain ⟨returns, holds, steps, space, depth, objects, keeps⟩ := h
  exact ⟨returns, holds, steps, space, depth, objects, hk.trans keeps⟩

/-! ## Statements -/

variable {S : Site C depth} {F H : Condition}

/-- Where the machine stands behind a statement. -/
inductive Went (S : Site C depth) (F : Condition) (n : Nat) (p : Primitive) :
    Option Int → LoweringState → Store → State → Prop where
  | next {t : LoweringState} {σ : Store} {z : State} (now : Now S F n t σ z) : Went S F n p none t σ z
  | leave {a : Int} {t : LoweringState} {σ : Store} {z : State}
      (leaving : Leaving C S.act S.callers S.memory n p a σ z) : Went S F n p (some a) t σ z

/-- Wherever the code of a statement stands, the machine follows an execution of the statement. There
are `i` units to spare for it. -/
def FollowsStmt (C : Context) (depth : Nat) (cx : Lowering Unit) (ev : Eval (Option Int))
    (p : Primitive) (i : Nat) : Prop :=
  ∀ (S : Site C depth) (P : List BlockRef) (F : Condition) (n : Nat) [Lasting S.act.base F],
    Sim S P (Now S F (n + i)) cx ev fun _ => Went S F n p

theorem sim_leave {cx : Ssa.Build Unit} {controls : List (Option ValueRef) → List (Option ValueRef)}
    (hend : Lowering.Ending cx .ret controls [])
    (hv : ∀ {s σ w fr}, H s σ w fr → GivesBack C s fr.regs p i (controls [])) :
    Sim S P (Now S H n) (Lowering.build cx) (pure (some i)) fun _ => Went S F n p := by
  rintro s σ _ r t c - - ⟨rel, keeps, holds⟩ hr hg
  obtain ⟨z, hz, hl⟩ := rel.leave S.callers (rel.stands.ended hend hr) hg (hv holds)
  exact After.head hz (After.pure (.leave (hl.since keeps)))

/-! ## Variables that get a slot -/

/-- The variables may be others, if the slots agree. -/
theorem Rel.withVars {l : Locals} (h : Rel C A b s n σ w fr) (hl : Vars C A s l w.memory fr.regs) :
    Rel C A b s n { σ with locals := l } w fr :=
  { h with vars := hl }

theorem Rel.bound {zeroed : Bool} (callers : List Frame) (h : Rel C A b s (n + 1) σ w fr)
    (g : BindShape A.func A.entry vr (C.setting.type vr.id).bits zeroed b s x t)
    (hp : (C.setting.type vr.id).isPlain)
    (hx : if zeroed then i = 0 else Den C x (C.setting.type vr.id) i s σ w fr)
    (hg : C.Takes t) :
    ∃ w' fr', Moves C s A.base callers w fr w' fr' ∧
      Rel C A b t n { σ with locals := σ.locals.set vr.id i } w' fr' := by
  obtain ⟨hslot, hzero, hstore, hbind, hmodule, hlookup⟩ := g
  rename_i s₁ s₂ s₃ slot m
  have g₃ := hbind.grows.trans hg
  have g₂ := hstore.adds.grows.trans g₃
  have a₂ : Adds A.func A.entry b s₁ b s₂ 0 := by
    cases zeroed with
    | true => exact Consted.adds (by simpa using hzero)
    | false =>
      obtain rfl : s₂ = s₁ := by simpa using hzero
      exact .refl hslot.adds.stands
  obtain ⟨⟨w₁, fr₁, k₁, rel₁⟩, hmem₁, hisSlot, htype⟩ := h.slot hslot (a₂.grows.trans g₂)
  obtain ⟨rel₂, den₂⟩ : Rel C A b s₂ (n + 1) σ w₁ fr₁ ∧
      Denotes C fr₁.regs x (C.setting.type vr.id) i := by
    cases zeroed with
    | true =>
      obtain ⟨rel₂, reads₂, type₂⟩ := rel₁.const hzero g₂
      refine ⟨rel₂, ?_, hx ▸ Primitive.holds_zero _,
        type₂.trans (Primitive.machineType_of_isPlain hp).symm⟩
      rw [hx, ← Word.wrap_ofInt_of_holds hp (Primitive.holds_zero _)]
      exact reads₂
    | false =>
      obtain rfl : s₂ = s₁ := by simpa using hzero
      exact ⟨rel₁, k₁.kept.denotes hx.2 hx.1⟩
  have ext₂ : Extends s s₂ := .of_adds (hslot.adds.trans a₂)
  have hmem₂ := mem_code a₂.grows rel₁.stands.entryBound hmem₁
  have hfree : ∀ id x, σ.locals id = some x → ∃ st, s₂.storage.lookup id = some st ∧
      (st.addr = slot ∧ x = i ∧ C.setting.type id = C.setting.type vr.id ∧
        slot ∈ (s₂.module.block A.entry).values ∨ st.addr ≠ slot ∧ σ.locals id = some x) := by
    intro id x hx
    obtain ⟨st, hst, -⟩ := h.vars id x hx
    exact ⟨st, ext₂.storage id st hst, .inr ⟨hslot.unused h.stands hst, hx⟩⟩
  obtain ⟨w₃, fr₃, k₃, rel₃, content₃⟩ := rel₂.store hstore g₃
    (mem_ready rel₂.grows rel₂.stands.entryBound hmem₂) hisSlot htype hp den₂ hfree
  have rel₄ := rel₃.aside hbind hg (by rw [hmodule])
  refine ⟨w₃, fr₃, k₁.trans (k₃.since ext₂.grows), rel₄.withVars fun id a ha => ?_⟩
  unfold Locals.set at ha
  by_cases hid : id = vr.id
  · rw [if_pos hid] at ha
    obtain rfl := Option.some.inj ha
    refine ⟨⟨slot, false, none⟩, by rw [hlookup, if_pos hid], ?_, ?_, ?_, ?_, ?_⟩
    · exact mem_code (hstore.adds.trans hbind).grows rel₂.stands.entryBound hmem₂
    · rw [hid]
      exact htype
    · rw [hid]
      exact hp
    · rw [hid]
      exact den₂.holds
    · rw [hid]
      exact content₃
  · rw [if_neg hid] at ha
    exact rel₄.vars id a ha

theorem sim_bound [Lasting S.act.base F] {vr : Core.Var} {cu : Lowering Unit} {zeroed : Bool}
    (hv : vr.Sound C.setting) (hF : H.Entails F)
    (hx : ∀ {b s σ w fr t y}, Stands S.act.func S.act.entry b s → H s σ w fr → Runs cu S.env s y t →
      ∃ x, BindShape S.act.func S.act.entry vr (C.setting.type vr.id).bits zeroed b s x t ∧
        if zeroed then i = 0 else Den C x (C.setting.type vr.id) i s σ w fr) :
    Sim S P (Now S H (n + 1)) cu (do Eval.write vr i; return none) fun _ => Went S F n p := by
  rintro s σ _ r t c - - ⟨rel, keeps, holds⟩ hr hg
  obtain ⟨x, shape, hx⟩ := hx rel.stands holds hr
  obtain ⟨w', fr', hm, rel'⟩ := rel.bound S.callers shape hv.isPlain_type hx hg
  refine After.bind (Q := fun _ σ' z => Now S F n t σ' z) (After.write hm.reaches ?_) fun _ _ _ h =>
    After.pure (.next h)
  exact ⟨rel', keeps.trans hm.kept.memory,
    Lasting.keep (hF holds) (.of_adds shape.adds) hm.kept⟩

/-! ## Single statements -/

variable {cx : Lowering ValueRef} {cu cu' : Lowering Unit} {ex : Eval Int}
  {eu eu' : Eval (Option Int)} {nx nu : Nat}

theorem followsStmt_spend {i i' : Nat} (h : FollowsStmt C depth cu eu p i) (hi : i ≤ i') :
    FollowsStmt C depth cu (do Eval.spend i'; eu) p 0 :=
  fun S P F n _ => ((h S P F n).mono (·.imp id (Nat.add_le_add_left hi n)) id).spend

theorem followsStmt_expr (hl : Lowers C.functions cx nx) (hx : Follows C depth cx ex q 0 1) :
    FollowsStmt C depth (do let _ ← cx) (do let _ ← ex; return none) p 0 :=
  fun S P F n _ => .bind (hx S P F n) fun _ _ => .pure fun h =>
    .next (h.imp (fun h => h.1) (Nat.le_succ n))

theorem followsStmt_declare (hv : vr.Sound C.setting) :
    FollowsStmt C depth (Lowering.bindDeclared vr) (do Eval.write vr 0; return none) p 1 :=
  fun _ _ _ _ _ => sim_bound hv id fun hs _ hr => by
    obtain ⟨x, shape⟩ := hs.bindDeclared hv hr
    exact ⟨x, shape, rfl⟩

theorem followsStmt_bind (hv : vr.Sound C.setting) (hl : Lowers C.functions cx nx)
    (hx : Follows C depth cx ex (C.setting.type vr.id) 0 0) :
    FollowsStmt C depth (do Lowering.bindValue vr (← cx) none)
      (do Eval.write vr (← ex); return none) p 1 := fun S P F n _ => by
  have := Lowering.lowers_bindValue C.functions hv
  exact .bind (hx S P F (n + 1)) fun v a => sim_bound hv (fun h => h.1) fun hs holds hr =>
    ⟨v, hs.bindValue hv hr, holds.2⟩

theorem followsStmt_assign {o : Operand} (hv : vr.Sound C.setting)
    (hl : Lowers C.functions (o.as vr.type) nx)
    (hx : Follows C depth (o.as vr.type) ex (C.setting.type vr.id) 0 0) :
    FollowsStmt C depth (Lowering.assign vr o) (do Eval.update vr (← ex); return none) p 1 :=
  fun S P F n _ => by
  rw [Lowering.assign_eq hv]
  refine .next sim_storageOf fun st => .bind (hx S P _ (n + 1)) fun v a => ?_
  exact .map ((sim_update (fun h => h.1.2) fun h => h.2).mono id fun h =>
    .next (h.imp (fun h => h.1.1.1) le_rfl))

theorem followsStmt_ret (hl : Lowers C.functions cx nx) (hx : Follows C depth cx ex p 0 0) :
    FollowsStmt C depth (do Lowering.build (.ret (some (← cx)))) (do return some (← ex)) p 0 :=
  fun S P F n _ => .bind (hx S P F n) fun v _ => sim_leave (Lowering.ending_ret (some v)) fun h =>
    .value h.2.2 h.2.1

theorem followsStmt_seq (hl : Lowers C.functions cu nu) (hl' : Lowers C.functions cu' nx)
    (hx : FollowsStmt C depth cu eu p 0) (hy : FollowsStmt C depth cu' eu' p 0) :
    FollowsStmt C depth (do if !(← Lowering.build .isTerminated) then do cu; cu')
      (do match ← eu with
          | some a => return some a
          | none => eu') p 0 := fun S P F n _ => by
  refine .opened (.bind (hx S P F n) fun _ a => ?_)
  cases a with
  | none => exact (hy S P F n).mono (fun | .next now => now) id
  | some a => exact .gone fun | .leave leaving => .leave leaving

end SsaCompiler.Simulation
