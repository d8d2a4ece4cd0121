import SsaCompiler.Proofs.Simulation.Jump

/-!
# Machines that follow an evaluation

`After` says of a state of a machine what an evaluation says of the program: if the evaluation has a
result, the machine gets to a state that fits the result, and if the evaluation has none because of a
trap, the machine stops for the same reason. The rules below follow the steps of the evaluator.
-/

namespace SsaCompiler

open Machine

variable {v : Core.Var}

/-- The reason why a machine stops where an evaluation has no result. -/
def Core.Trap.Matches : Core.Trap → Stop → Prop
  | .divideByZero, why => ∃ func block what,
      why = .runtime func block (what ++ ": " ++ Fault.divideByZero.message)
  | .stackOverflow, why => ∃ func block, why = .runtime func block "stack overflow"

namespace Simulation

open Core (Store Eval Locals Trap)

variable {C : Context} {α β : Type} {x : Eval α} {g : α → Eval β} {σ σ' : Store} {y z : State}
  {Q Q' : α → Store → State → Prop} {R : β → Store → State → Prop} {a : α}

/-- The machine stops for the reason of a trap, without output. -/
def Stops (C : Context) (y : State) (e : Trap) : Prop :=
  ∃ z why u, Reaches C.program C.limit y z ∧ C.program.step C.limit z = .stopped why u ∧
    u.world.output = z.world.output ∧ e.Matches why

/-- The machine does what the evaluation says. -/
def After (C : Context) (y : State) (x : Eval α) (σ : Store) (Q : α → Store → State → Prop) : Prop :=
  match x.run.run σ with
  | none => True
  | some (.ok a, σ') => ∃ z, Reaches C.program C.limit y z ∧ Q a σ' z
  | some (.error e, _) => Stops C y e

namespace After

theorem of_ok (h : x.run.run σ = some (.ok a, σ')) : After C y x σ Q ↔
    ∃ z, Reaches C.program C.limit y z ∧ Q a σ' z := by
  unfold After
  rw [h]

theorem of_error {e : Trap} (h : x.run.run σ = some (.error e, σ')) :
    After C y x σ Q ↔ Stops C y e := by
  unfold After
  rw [h]

theorem of_none (h : x.run.run σ = none) : After C y x σ Q := by
  unfold After
  rw [h]
  trivial

theorem head (hy : Reaches C.program C.limit y z) (h : After C z x σ Q) : After C y x σ Q := by
  cases hx : x.run.run σ with
  | none => exact of_none hx
  | some r =>
    obtain ⟨_ | _, σ'⟩ := r
    · obtain ⟨z', why, u, hz, hrest⟩ := (of_error hx).mp h
      exact (of_error hx).mpr ⟨z', why, u, hy.trans hz, hrest⟩
    · obtain ⟨z', hz, hq⟩ := (of_ok hx).mp h
      exact (of_ok hx).mpr ⟨z', hy.trans hz, hq⟩

theorem run_bind (x : Eval α) (g : α → Eval β) (σ : Store) :
    (x >>= g).run.run σ = (x.run.run σ).bind fun r =>
      match r with
      | (.ok a, σ') => (g a).run.run σ'
      | (.error e, σ') => some (.error e, σ') := by
  show (x.run >>= ExceptT.bindCont g).run σ = _
  rw [StateT.run_bind]
  congr 1
  funext r
  obtain ⟨_ | _, σ'⟩ := r <;> rfl

theorem bind (h : After C y x σ Q) (hg : ∀ a σ' z, Q a σ' z → After C z (g a) σ' R) :
    After C y (x >>= g) σ R := by
  have hrun := run_bind x g σ
  cases hx : x.run.run σ with
  | none =>
    rw [hx] at hrun
    exact of_none hrun
  | some r =>
    rw [hx] at hrun
    obtain ⟨_ | a, σ'⟩ := r
    · exact (of_error hrun).mpr ((of_error hx).mp h)
    · obtain ⟨z, hz, hq⟩ := (of_ok hx).mp h
      have hk := (hg a σ' z hq).head hz
      unfold After at hk ⊢
      rw [hrun]
      exact hk

theorem pure (h : Q a σ y) : After C y (Pure.pure a) σ Q :=
  (of_ok rfl).mpr ⟨y, .refl, h⟩

theorem mono (h : After C y x σ Q) (hq : ∀ a σ' z, Q a σ' z → Q' a σ' z) : After C y x σ Q' := by
  have := h.bind (g := Pure.pure) fun a σ' z hz => pure (hq a σ' z hz)
  rwa [bind_pure] at this

theorem tail (h : After C y x σ Q)
    (hq : ∀ a σ' z, Q a σ' z → ∃ z', Reaches C.program C.limit z z' ∧ Q' a σ' z') :
    After C y x σ Q' := by
  have := h.bind (g := Pure.pure) fun a σ' z hz => by
    obtain ⟨z', hz', hq'⟩ := hq a σ' z hz
    exact head hz' (pure hq')
  rwa [bind_pure] at this

theorem stuck : After C y (Eval.stuck : Eval α) σ Q :=
  of_none rfl

theorem spend {n : Nat} {Q : Unit → Store → State → Prop}
    (h : n ≤ σ.budget → Q () { σ with budget := σ.budget - n } y) :
    After C y (Eval.spend n) σ Q := by
  have hrun : (Eval.spend n).run.run σ =
      if n ≤ σ.budget then some (.ok (), { σ with budget := σ.budget - n }) else none := rfl
  by_cases hn : n ≤ σ.budget
  · rw [if_pos hn] at hrun
    exact (of_ok hrun).mpr ⟨y, .refl, h hn⟩
  · rw [if_neg hn] at hrun
    exact of_none hrun

theorem occupy {n : Nat} {Q : Unit → Store → State → Prop}
    (h : n ≤ σ.room → Q () { σ with room := σ.room - n } y) :
    After C y (Eval.occupy n) σ Q := by
  have hrun : (Eval.occupy n).run.run σ =
      if n ≤ σ.room then some (.ok (), { σ with room := σ.room - n }) else none := rfl
  by_cases hn : n ≤ σ.room
  · rw [if_pos hn] at hrun
    exact (of_ok hrun).mpr ⟨y, .refl, h hn⟩
  · rw [if_neg hn] at hrun
    exact of_none hrun

theorem read {Q : Int → Store → State → Prop}
    (h : ∀ a, σ.locals v.id = some a → ∃ z, Reaches C.program C.limit y z ∧ Q a σ z) :
    After C y (Eval.read v) σ Q := by
  have hrun : (Eval.read v).run.run σ = (σ.locals v.id).map fun a => (.ok a, σ) := rfl
  cases ha : σ.locals v.id with
  | none =>
    rw [ha] at hrun
    exact of_none hrun
  | some a =>
    rw [ha] at hrun
    exact (of_ok hrun).mpr (h a ha)

theorem write {a : Int} {Q : Unit → Store → State → Prop} (hy : Reaches C.program C.limit y z)
    (h : Q () { σ with locals := σ.locals.set v.id a } z) : After C y (Eval.write v a) σ Q :=
  (of_ok rfl).mpr ⟨z, hy, h⟩

theorem update {v : Core.Var} {a : Int} {Q : Unit → Store → State → Prop}
    (h : ∀ b, σ.locals v.id = some b → ∃ z, Reaches C.program C.limit y z ∧
      Q () { σ with locals := σ.locals.set v.id a } z) : After C y (Eval.update v a) σ Q := by
  refine bind (read (Q := fun b σ' z => σ.locals v.id = some b ∧ σ' = σ ∧ z = y)
    fun b hb => ⟨y, .refl, hb, rfl, rfl⟩) ?_
  rintro b _ _ ⟨hb, rfl, rfl⟩
  obtain ⟨z, hz, hq⟩ := h b hb
  exact write hz hq

theorem stopped {e : Trap} (h : Stops C y e) : After C y (throw e : Eval α) σ Q :=
  (of_error rfl).mpr h

/-- A block: variables that it declares are gone behind it. -/
theorem inBlock {Q' : α → Store → State → Prop} (h : After C y x σ Q)
    (hq : ∀ a σ' z, Q a σ' z → Q' a
      { σ' with locals := fun i => if (σ.locals i).isSome then σ'.locals i else none } z) :
    After C y (Eval.inBlock x) σ Q' := by
  refine bind (Q := fun τ σ' z => τ = σ ∧ σ' = σ ∧ z = y) ((of_ok rfl).mpr ⟨y, .refl, rfl, rfl, rfl⟩)
    ?_
  rintro _ _ _ ⟨rfl, rfl, rfl⟩
  refine bind h fun a σ' z hz => ?_
  exact (of_ok rfl).mpr ⟨z, .refl, hq a σ' z hz⟩

/-- Another method with variables of its own. -/
theorem within {l : Locals} (h : After C y x { σ with locals := l } Q)
    (hq : ∀ a σ' z, Q a σ' z → Q' a { σ' with locals := σ.locals } z) :
    After C y (Eval.within l x) σ Q' := by
  refine bind (Q := fun τ σ' z => τ = σ ∧ σ' = σ ∧ z = y) ((of_ok rfl).mpr ⟨y, .refl, rfl, rfl, rfl⟩)
    ?_
  rintro τ σ₁ z ⟨hτ, hσ, hz⟩
  rw [hτ, hσ, hz]
  refine bind (Q := fun _ σ' z' => σ' = { σ with locals := l } ∧ z' = y)
    ((of_ok rfl).mpr ⟨_, .refl, rfl, rfl⟩) ?_
  rintro _ _ _ ⟨rfl, rfl⟩
  refine bind h fun a σ' z hz => ?_
  exact (of_ok rfl).mpr ⟨z, .refl, hq a σ' z hz⟩

end After

end Simulation

end SsaCompiler
