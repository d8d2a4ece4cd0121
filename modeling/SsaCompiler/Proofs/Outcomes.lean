import SsaCompiler.Proofs.Runs

/-!
# Both outcomes of a computation

A computation of typing or lowering ends with a result or with a failure, and in both cases it leaves
a state behind. `Triple` says about a computation what is true of the one outcome and of the other,
whichever it is. There is one rule for each step that computations are written with.
-/

namespace SsaCompiler

section

variable {ρ ε σ α β : Type}

/-- A computation started in one state ends in another one with a failure. -/
def Fails (x : ReaderT ρ (ExceptT ε (StateM σ)) α) (env : ρ) (s : σ) (e : ε) (t : σ) : Prop :=
  (x.run env).run.run s = (.error e, t)

variable {x : ReaderT ρ (ExceptT ε (StateM σ)) α} {f : α → ReaderT ρ (ExceptT ε (StateM σ)) β}
  {env : ρ} {s t : σ} {a : α} {e : ε}

/-- A sequence of two computations fails if the first one does, or the second one behind it. -/
theorem fails_bind : Fails (x >>= f) env s e t ↔
    Fails x env s e t ∨ ∃ a u, Runs x env s a u ∧ Fails (f a) env u e t := by
  have hrun : ((x >>= f).run env).run.run s =
      (((x.run env).run >>= fun r => ExceptT.bindCont (fun a => (f a).run env) r).run s) := rfl
  unfold Fails Runs
  rw [hrun, StateT.run_bind]
  rcases hx : (x.run env).run.run s with ⟨e' | a, u⟩
  · constructor
    · intro h
      cases h
      exact .inl rfl
    · rintro (h | ⟨a, u', h, -⟩)
      · cases h
        rfl
      · cases h
  · constructor
    · intro h
      exact .inr ⟨a, u, rfl, h⟩
    · rintro (h | ⟨a', u', h, hf⟩)
      · cases h
      · cases h
        exact hf

theorem fails_throw {e' : ε} : Fails (throw e' : ReaderT ρ (ExceptT ε (StateM σ)) α) env s e t ↔
    e = e' ∧ t = s := by
  constructor
  · intro h
    cases h
    exact ⟨rfl, rfl⟩
  · rintro ⟨rfl, rfl⟩
    rfl

theorem fails_map {g : α → β} : Fails (g <$> x) env s e t ↔ Fails x env s e t := by
  have h : (g <$> x) = x >>= fun a => pure (g a) := (bind_pure_comp g x).symm
  rw [h, fails_bind]
  constructor
  · rintro (h | ⟨a, u, -, h⟩)
    · exact h
    · cases h
  · exact .inl

/-- In an environment of which `R` is true, and started where `I` is true, a computation leaves `J`
true of its result, or `E` of its failure. -/
def Triple (R : ρ → Prop) (I : σ → Prop) (x : ReaderT ρ (ExceptT ε (StateM σ)) α)
    (J : α → σ → Prop) (E : ε → σ → Prop) : Prop :=
  ∀ ⦃env s⦄, R env → I s → (∀ a t, Runs x env s a t → J a t) ∧ ∀ e t, Fails x env s e t → E e t

end

namespace Triple

variable {ρ ε σ α β : Type} {x : ReaderT ρ (ExceptT ε (StateM σ)) α}
  {f : α → ReaderT ρ (ExceptT ε (StateM σ)) β} {R : ρ → Prop} {I I' : σ → Prop}
  {J J' : α → σ → Prop} {K : β → σ → Prop} {E : ε → σ → Prop}

theorem bind (hx : Triple R I x J E) (hf : ∀ a, Triple R (J a) (f a) K E) :
    Triple R I (x >>= f) K E := by
  intro env s hR hs
  refine ⟨fun b t hr => ?_, fun e t he => ?_⟩
  · obtain ⟨a, u, hxr, hfr⟩ := runs_bind.mp hr
    exact (hf a hR ((hx hR hs).1 a u hxr)).1 b t hfr
  · rcases fails_bind.mp he with he | ⟨a, u, hxr, hfe⟩
    · exact (hx hR hs).2 e t he
    · exact (hf a hR ((hx hR hs).1 a u hxr)).2 e t hfe

theorem weaken (hx : Triple R I x J E) (hI : ∀ s, I' s → I s) (hJ : ∀ a s, J a s → J' a s) :
    Triple R I' x J' E := by
  intro env s hR hs
  obtain ⟨hok, herr⟩ := hx hR (hI s hs)
  exact ⟨fun a t hr => hJ a t (hok a t hr), herr⟩

theorem before (hx : Triple R I x J E) (hI : ∀ s, I' s → I s) : Triple R I' x J E :=
  hx.weaken hI fun _ _ h => h

theorem after (hx : Triple R I x J E) (hJ : ∀ a s, J a s → J' a s) : Triple R I x J' E :=
  hx.weaken (fun _ h => h) hJ

/-- What is known before, and has nothing to do with the state, may be used. -/
theorem known {p : Prop} (hx : p → Triple R I x J E) : Triple R (fun s => p ∧ I s) x J E :=
  fun _ _ hR hs => hx hs.1 hR hs.2

/-- What is known of all runs is known of the results. -/
theorem also {P : σ → Prop} {Q : α → σ → Prop} (hx : Triple R I x J E)
    (h : ∀ env s a t, R env → P s → Runs x env s a t → Q a t) :
    Triple R (fun s => I s ∧ P s) x (fun a s => J a s ∧ Q a s) E :=
  fun _ _ hr hs =>
    ⟨fun a t ht => ⟨(hx hr hs.1).1 a t ht, h _ _ a t hr hs.2 ht⟩, (hx hr hs.1).2⟩

theorem pure {a : α} (h : ∀ s, I s → J a s) :
    Triple R I (pure a : ReaderT ρ (ExceptT ε (StateM σ)) α) J E := by
  intro env s hR hs
  refine ⟨fun b t hr => ?_, fun e t he => ?_⟩
  · obtain ⟨rfl, rfl⟩ := runs_pure.mp hr
    exact h _ hs
  · cases he

theorem map {g : α → β} (hx : Triple R I x J E) (hJ : ∀ a s, J a s → K (g a) s) :
    Triple R I (g <$> x) K E := by
  intro env s hR hs
  refine ⟨fun b t hr => ?_, fun e t he => (hx hR hs).2 e t (fails_map.mp he)⟩
  obtain ⟨a, hxr, rfl⟩ := runs_map.mp hr
  exact hJ a t ((hx hR hs).1 a t hxr)

theorem throw {e : ε} (h : ∀ s, I s → E e s) :
    Triple R I (throw e : ReaderT ρ (ExceptT ε (StateM σ)) α) J E := by
  intro env s hR hs
  refine ⟨fun a t hr => absurd hr runs_throw, fun e' t he => ?_⟩
  obtain ⟨rfl, rfl⟩ := fails_throw.mp he
  exact h _ hs

theorem read {J : ρ → σ → Prop} (h : ∀ env s, R env → I s → J env s) :
    Triple R I (read : ReaderT ρ (ExceptT ε (StateM σ)) ρ) J E := by
  intro env s hR hs
  refine ⟨fun r t hr => ?_, fun e t he => ?_⟩
  · obtain ⟨rfl, rfl⟩ := runs_read.mp hr
    exact h _ _ hR hs
  · cases he

theorem get : Triple R I (get : ReaderT ρ (ExceptT ε (StateM σ)) σ) (fun r s => r = s ∧ I s) E := by
  intro env s hR hs
  refine ⟨fun r t hr => ?_, fun e t he => ?_⟩
  · obtain ⟨rfl, rfl⟩ := runs_get.mp hr
    exact ⟨rfl, hs⟩
  · cases he

/-- What is true of the state is true of what is read from it. -/
theorem get_bind {g : σ → ReaderT ρ (ExceptT ε (StateM σ)) β}
    (h : ∀ r, I r → Triple R I (g r) K E) : Triple R I (MonadState.get >>= g) K E :=
  get.bind fun r _ _ hR hs => h r (hs.1 ▸ hs.2) hR hs.2

theorem set {r : σ} {J : PUnit → σ → Prop} (h : ∀ s, I s → J ⟨⟩ r) :
    Triple R I (set r : ReaderT ρ (ExceptT ε (StateM σ)) PUnit) J E := by
  intro env s hR hs
  refine ⟨fun u t hr => ?_, fun e t he => ?_⟩
  · obtain rfl := runs_set.mp hr
    exact h _ hs
  · cases he

theorem modify {g : σ → σ} {J : PUnit → σ → Prop} (h : ∀ s, I s → J ⟨⟩ (g s)) :
    Triple R I (modify g : ReaderT ρ (ExceptT ε (StateM σ)) PUnit) J E := by
  intro env s hR hs
  refine ⟨fun r t hr => ?_, fun e t he => ?_⟩
  · obtain rfl := runs_modify.mp hr
    exact h _ hs
  · cases he

end Triple

/-! ## Steps of lowering -/

namespace Lowering

variable {α : Type} {env : Env} {s t : LoweringState} {e : Failure}

theorem fails_lift {x : Env → Except Failure α} :
    Fails (lift x) env s e t ↔ x env = .error e ∧ t = s := by
  unfold lift
  rw [fails_bind]
  constructor
  · rintro (h | ⟨r, u, hr, h⟩)
    · cases h
    · obtain ⟨rfl, rfl⟩ := runs_read.mp hr
      cases hx : x r with
      | ok a =>
        rw [hx] at h
        cases h
      | error e' =>
        rw [hx] at h
        obtain ⟨rfl, rfl⟩ := fails_throw.mp h
        exact ⟨rfl, rfl⟩
  · rintro ⟨hx, rfl⟩
    refine .inr ⟨env, t, runs_read.mpr ⟨rfl, rfl⟩, ?_⟩
    rw [hx]
    exact fails_throw.mpr ⟨rfl, rfl⟩

/-- A misuse of the builder changes nothing. -/
theorem fails_build {x : Ssa.Build α} : Fails (build x) env s e t ↔
    ∃ m, x.run s.builder = .error m ∧ e = .internal (.misuse m) ∧ t = s := by
  unfold build
  rw [fails_bind]
  constructor
  · rintro (h | ⟨r, u, hr, h⟩)
    · cases h
    · obtain ⟨rfl, rfl⟩ := runs_get.mp hr
      cases hx : x.run u.builder with
      | ok p =>
        rw [hx] at h
        cases h
      | error m =>
        rw [hx] at h
        obtain ⟨rfl, rfl⟩ := fails_throw.mp h
        exact ⟨m, rfl, rfl, rfl⟩
  · rintro ⟨m, hx, rfl, rfl⟩
    refine .inr ⟨t, t, runs_get.mpr ⟨rfl, rfl⟩, ?_⟩
    rw [hx]
    exact fails_throw.mpr ⟨rfl, rfl⟩

end Lowering

/-! ## Steps of typing -/

namespace Typing

variable {α : Type} {env : Env} {s t : TypingState} {e : Failure}

theorem fails_lift {x : Except Failure α} : Fails (lift x) env s e t ↔ x = .error e ∧ t = s := by
  unfold lift
  cases x with
  | ok a =>
    constructor
    · intro h
      cases h
    · rintro ⟨h, -⟩
      cases h
  | error e' =>
    rw [fails_throw]
    constructor
    · rintro ⟨rfl, rfl⟩
      exact ⟨rfl, rfl⟩
    · rintro ⟨h, rfl⟩
      cases h
      exact ⟨rfl, rfl⟩

end Typing

end SsaCompiler
