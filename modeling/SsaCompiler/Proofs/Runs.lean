import SsaCompiler.Unit.Compile

/-!
# Successful runs

Typing and lowering are computations that read an environment, may fail and change a state. What can
be said about a computation that did not fail is said about the steps that it consists of: a sequence
of two computations runs through if both of them do, one behind the other. The lemmas here take a run
apart in this way, for all the steps that the computations are written with.
-/

namespace SsaCompiler

/-! ## Computations with an environment -/

section

variable {ρ ε σ α β : Type}

/-- A computation started in one state ends in another one with a result. -/
def Runs (x : ReaderT ρ (ExceptT ε (StateM σ)) α) (env : ρ) (s : σ) (a : α) (t : σ) : Prop :=
  (x.run env).run.run s = (.ok a, t)

variable {x : ReaderT ρ (ExceptT ε (StateM σ)) α} {f : α → ReaderT ρ (ExceptT ε (StateM σ)) β}
  {env : ρ} {s t : σ} {a a' : α} {b : β}

@[simp]
theorem runs_bind : Runs (x >>= f) env s b t ↔ ∃ a u, Runs x env s a u ∧ Runs (f a) env u b t := by
  have step : ((x >>= f).run env).run.run s = match (x.run env).run.run s with
      | (.ok a, u) => ((f a).run env).run.run u
      | (.error e, u) => (.error e, u) := by
    show (((x.run env) >>= fun a => (f a).run env).run).run s = _
    simp only [ExceptT.run_bind, StateT.run_bind]
    rcases (StateT.run (ExceptT.run (x.run env)) s : Except ε α × σ) with ⟨r | r, u⟩ <;> rfl
  unfold Runs
  rw [step]
  constructor
  · intro h
    split at h
    next a u hx => exact ⟨a, u, hx, h⟩
    next => exact absurd h (by intro h; cases h)
  · rintro ⟨a, u, hx, h⟩
    rw [hx]
    exact h

/-- A computation runs in one way only. -/
theorem Runs.iff {u : σ} (h : Runs x env s a u) : Runs x env s a' t ↔ a' = a ∧ t = u := by
  constructor
  · intro h'
    cases h.symm.trans h'
    exact ⟨rfl, rfl⟩
  · rintro ⟨rfl, rfl⟩
    exact h

@[simp]
theorem runs_pure :
    Runs (pure a : ReaderT ρ (ExceptT ε (StateM σ)) α) env s a' t ↔ a' = a ∧ t = s :=
  Runs.iff rfl

@[simp]
theorem runs_map {g : α → β} : Runs (g <$> x) env s b t ↔ ∃ a, Runs x env s a t ∧ b = g a := by
  have h : (g <$> x) = x >>= fun a => pure (g a) := (bind_pure_comp g x).symm
  rw [h, runs_bind]
  simp only [runs_pure]
  constructor
  · rintro ⟨a, u, hx, rfl, rfl⟩
    exact ⟨a, hx, rfl⟩
  · rintro ⟨a, hx, rfl⟩
    exact ⟨a, t, hx, rfl, rfl⟩

@[simp]
theorem runs_throw {e : ε} :
    ¬ Runs (throw e : ReaderT ρ (ExceptT ε (StateM σ)) α) env s a t := by
  intro h
  cases h

@[simp]
theorem runs_read {r : ρ} :
    Runs (read : ReaderT ρ (ExceptT ε (StateM σ)) ρ) env s r t ↔ r = env ∧ t = s :=
  Runs.iff rfl

@[simp]
theorem runs_get {r : σ} :
    Runs (get : ReaderT ρ (ExceptT ε (StateM σ)) σ) env s r t ↔ r = s ∧ t = s :=
  Runs.iff rfl

@[simp]
theorem runs_set {r : σ} {u : PUnit} :
    Runs (set r : ReaderT ρ (ExceptT ε (StateM σ)) PUnit) env s u t ↔ t = r :=
  (Runs.iff rfl).trans (and_iff_right rfl)

@[simp]
theorem runs_modify {g : σ → σ} {u : PUnit} :
    Runs (modify g : ReaderT ρ (ExceptT ε (StateM σ)) PUnit) env s u t ↔ t = g s :=
  (Runs.iff rfl).trans (and_iff_right rfl)

end

/-! ## Computations without an environment -/

section

variable {ε σ α β : Type} {x : StateT σ (Except ε) α} {f : α → StateT σ (Except ε) β} {s t : σ}
  {a a' : α} {b : β}

theorem run_bind_ok : (x >>= f).run s = .ok (b, t) ↔
    ∃ a u, x.run s = .ok (a, u) ∧ (f a).run u = .ok (b, t) := by
  rw [StateT.run_bind]
  cases h : x.run s with
  | error e => exact ⟨fun h => (nomatch h), fun ⟨_, _, h, _⟩ => (nomatch h)⟩
  | ok r =>
    obtain ⟨a, u⟩ := r
    constructor
    · exact fun h => ⟨a, u, rfl, h⟩
    · rintro ⟨_, _, hx, h⟩
      cases hx
      exact h

theorem run_ok_iff {u : σ} (h : x.run s = .ok (a, u)) : x.run s = .ok (a', t) ↔ a' = a ∧ t = u := by
  rw [h]
  simp [eq_comm]

theorem run_pure_ok : (pure a : StateT σ (Except ε) α).run s = .ok (a', t) ↔ a' = a ∧ t = s :=
  run_ok_iff rfl

end

theorem exists_ok_of_any {x : Except ε α} {p : α → Bool} (h : x.toOption.any p) :
    ∃ a, x = .ok a ∧ p a := by
  cases x with
  | error e => cases h
  | ok a => exact ⟨a, rfl, h⟩

/-! ## Steps of typing -/

namespace Typing

variable {α : Type} {env : Env} {s t : TypingState} {a : α}

@[simp]
theorem runs_lift {x : Except Failure α} : Runs (lift x) env s a t ↔ x = .ok a ∧ t = s := by
  cases x with
  | error e => simp [lift]
  | ok b => simp [lift, eq_comm]

end Typing

/-! ## Steps of lowering -/

namespace Lowering

variable {α : Type} {env : Env} {s t : LoweringState} {a : α}

@[simp]
theorem runs_fail {d : Defect} : ¬ Runs (fail d : Lowering α) env s a t :=
  runs_throw

@[simp]
theorem runs_lift {x : Env → Except Failure α} :
    Runs (lift x) env s a t ↔ x env = .ok a ∧ t = s := by
  cases h : x env with
  | error e => simp [lift, h]
  | ok b =>
    have hrun : Runs (lift x) env s b s := by
      refine runs_bind.mpr ⟨env, s, rfl, ?_⟩
      rw [h]
      rfl
    rw [hrun.iff, Except.ok.injEq, eq_comm]

/-- A step of construction leaves all but the module and the current block as it is. -/
theorem runs_build {x : Ssa.Build α} :
    Runs (build x) env s a t ↔
      ∃ b, x.run s.builder = .ok (a, b) ∧ t = { s with builder := b } := by
  cases h : x.run s.builder with
  | error e => simp [build, h]
  | ok r =>
    obtain ⟨c, b⟩ := r
    have hrun : Runs (build x) env s c { s with builder := b } := by
      refine runs_bind.mpr ⟨s, s, rfl, ?_⟩
      rw [h]
      rfl
    simp only [hrun.iff, Except.ok.injEq, Prod.mk.injEq]
    constructor
    · rintro ⟨rfl, rfl⟩
      exact ⟨b, ⟨rfl, rfl⟩, rfl⟩
    · rintro ⟨_, ⟨rfl, rfl⟩, rfl⟩
      exact ⟨rfl, rfl⟩

theorem runs_build_iff {x : Ssa.Build α} {c : α} {b : Ssa.Builder}
    (h : x.run s.builder = .ok (c, b)) :
    Runs (build x) env s a t ↔ a = c ∧ t = { s with builder := b } :=
  Runs.iff (runs_build.mpr ⟨b, h, rfl⟩)

end Lowering

/-! ## Steps of compilation -/

namespace Compile

variable {α β : Type} {s t : Compilation} {a a' : α}

/-- A step of compilation started in one state ends in another one with a result. -/
def Goes (x : Compile α) (s : Compilation) (a : α) (t : Compilation) : Prop :=
  Runs (fun _ => x : ReaderT Unit Compile α) () s a t

@[simp]
theorem goes_pure : Goes (pure a) s a' t ↔ a' = a ∧ t = s :=
  runs_pure (ρ := Unit)

theorem goes_bind {x : Compile α} {f : α → Compile β} :
    Goes (x >>= f) s b t ↔ ∃ a u, Goes x s a u ∧ Goes (f a) u b t :=
  runs_bind (ρ := Unit)

theorem goes_of_isOk {x : Compile Unit} (h : (x.run s).1.isOk) : Goes x s () (x.run s).2 := by
  show x.run s = _
  rcases hx : x.run s with ⟨e | a, t⟩
  · rw [hx] at h
    cases h
  · rfl

end Compile

end SsaCompiler
