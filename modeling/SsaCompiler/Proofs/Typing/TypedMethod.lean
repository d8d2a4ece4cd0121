import SsaCompiler.Proofs.Typing.TypedExpr

/-!
# Typed methods

Typing gives every variable that is declared a number of its own. What it makes of a method is
therefore in order as far as variables go: each of them is declared before it is used, and no number
stands for two of them. A method with a result returns on every way through it.

What typing makes of the methods of an integral program is fit for lowering, and so are the default
values of fields. All variables that are declared on the way have integral types, since these come from
what is written or from the types of other values.

What it makes of a plain method is what the method stands for, and sound in a setting that is made along
the way: each declaration settles the type of one more variable, and leaves those of the variables
before it as they are.
-/

namespace SsaCompiler.Typing

open List
open Core (ExprTy IsResult Setting Var)

variable {α β : Type} {ω : Premise} {S : List (List Var)} {V : List Nat} {n k l : Nat} {here : Site}
  {m : Mark} {name : String} {s : Scalar} {scope vs : List Var} {v : Var} {d : Declaration}
  {c : Core.Stmt} {x : Core.Expr} {source : Stmt} {e init value : Expr} {result : Ty} {p : Pattern}

/-! ## Declarations -/

/-- Numbers from `n` on and below `k`, without repetition. -/
structure Numbered (n k : Nat) (bs : List Nat) : Prop where
  le : n ≤ k
  nodup : bs.Nodup
  range : ∀ b ∈ bs, n ≤ b ∧ b < k

theorem numbered_nil (n : Nat) : Numbered n n [] :=
  ⟨Nat.le_refl n, .nil, forall_mem_nil _⟩

theorem numbered_singleton (n : Nat) : Numbered n (n + 1) [n] :=
  ⟨Nat.le_succ n, nodup_cons.mpr ⟨not_mem_nil, .nil⟩, fun b hb => by
    rw [mem_singleton.mp hb]
    exact ⟨Nat.le_refl n, Nat.lt_succ_self n⟩⟩

theorem Numbered.append {as bs : List Nat} (has : Numbered n k as) (hbs : Numbered k l bs) :
    Numbered n l (as ++ bs) := by
  refine ⟨Nat.le_trans has.le hbs.le, ?_, fun b hb => ?_⟩
  · refine nodup_append.mpr ⟨has.nodup, hbs.nodup, ?_⟩
    rintro a ha _ hb rfl
    exact absurd (has.range a ha).2 (Nat.not_lt.mpr (hbs.range a hb).1)
  · rcases mem_append.mp hb with hb | hb
    · exact ⟨(has.range b hb).1, Nat.lt_of_lt_of_le (has.range b hb).2 hbs.le⟩
    · exact ⟨Nat.le_trans has.le (hbs.range b hb).1, (hbs.range b hb).2⟩

/-- A step of typing that declares variables `vs` in the innermost scope, with a property of its result,
of these variables and of the number of the next one. -/
def Declares (ω : Premise) (scope : List Var) (S : List (List Var)) (n : Nat) (x : Typing α)
    (Q : α → List Var → Nat → Prop) : Prop :=
  Triple ω.Sees (Sits (scope :: S) n) x
    (fun a s => ∃ vs k, Q a vs k ∧ Sits ((vs ++ scope) :: S) k s) fun e _ => e.Allowed True

namespace Declares

variable {x : Typing α} {f : α → Typing β} {P P' : α → List Var → Nat → Prop}
  {Q : β → List Var → Nat → Prop}

theorem bind (hx : Declares ω scope S n x P)
    (hf : ∀ a vs k, P a vs k → Declares ω (vs ++ scope) S k (f a) fun b ws l => Q b (ws ++ vs) l) :
    Declares ω scope S n (x >>= f) Q := by
  refine Triple.bind hx fun a => ?_
  rintro env s henv ⟨vs, k, hP, hs⟩
  refine Triple.after (hf a vs k hP) (fun b t ht => ?_) henv hs
  obtain ⟨ws, l, hQ, ht⟩ := ht
  exact ⟨ws ++ vs, l, hQ, by rw [append_assoc]; exact ht.scopes, ht.next⟩

theorem pure {a : α} (h : P a [] n) : Declares ω scope S n (pure a) P :=
  Triple.pure fun _ hs => ⟨[], n, h, hs⟩

theorem mono (hx : Declares ω scope S n x P) (h : ∀ a vs k, P a vs k → P' a vs k) :
    Declares ω scope S n x P' :=
  Triple.after hx fun a _ ha => by
    obtain ⟨vs, k, hP, hs⟩ := ha
    exact ⟨vs, k, h a vs k hP, hs⟩

theorem fail {cause : Cause} : Declares ω scope S n (Typing.fail here cause : Typing α) P :=
  Triple.throw fun _ _ => trivial

theorem check {c : Prop} [Decidable c] {cause : Cause} {k : Unit → Typing β}
    (h : ¬ c → Declares ω scope S n (k ()) Q) :
    Declares ω scope S n (if c then Typing.fail here cause >>= k else k ()) Q := by
  split
  next => exact fail.bind (P := fun _ _ _ => False) fun _ _ _ => False.elim
  next hc => exact h hc

end Declares

theorem Still.declares {x : Typing α} {P : α → Prop} {Q : β → List Var → Nat → Prop}
    (hx : Still ω (scope :: S) n x P) (hf : ∀ a, P a → Declares ω scope S n (f a) Q) :
    Declares ω scope S n (x >>= f) Q :=
  Triple.bind hx fun a => Triple.known (hf a)

/-- A block has a scope of its own, which is left at its end. -/
theorem declares_inBlock {x : Typing α} {Q : α → Nat → Prop}
    (hx : Declares ω [] (scope :: S) n x fun a _ k => Q a k) :
    Declares ω scope S n (inBlock x) fun a vs k => vs = [] ∧ Q a k := by
  refine Triple.bind (J := fun _ => Sits ([] :: scope :: S) n)
    (Triple.modify fun s hs => ⟨congrArg _ hs.scopes, hs.next⟩) fun _ => ?_
  refine Triple.bind hx fun a => ?_
  refine Triple.bind (Triple.modify (J := fun _ s => ∃ k, Q a k ∧ Sits (scope :: S) k s) ?_) fun _ =>
    Triple.pure ?_
  · rintro s ⟨vs, k, hQ, hs⟩
    exact ⟨k, hQ, congrArg List.tail hs.scopes, hs.next⟩
  · rintro s ⟨k, hQ, hs⟩
    exact ⟨[], k, ⟨rfl, hQ⟩, hs⟩

/-- Types can be chosen for the variables with numbers from `n` on and below `k` that make `P` true,
whatever the types of the variables behind them are. -/
def Settles (ω : Premise) (S : List (List Var)) (n k : Nat) (P : Setting → Prop) : Prop :=
  ω.plain → ∀ st, Fits ω S n st → ∃ st' : Setting, ∀ τ, st'.Agrees k τ → st.Agrees n τ ∧ P τ

namespace Settles

variable {P Q : Setting → Prop}

theorem of (h : ω.plain → ∀ st, Fits ω S n st → P st) : Settles ω S n n P :=
  fun hω st hst => ⟨st, fun τ hτ => ⟨hτ, h hω τ (hst.agrees hτ)⟩⟩

theorem imp (hP : Settles ω S n k P) (h : ω.plain → ∀ st, Fits ω S n st → P st → Q st) :
    Settles ω S n k Q := by
  intro hω st hst
  obtain ⟨st', h'⟩ := hP hω st hst
  exact ⟨st', fun τ hτ => ⟨(h' τ hτ).1, h hω τ (hst.agrees (h' τ hτ).1) (h' τ hτ).2⟩⟩

theorem bind (hP : Settles ω (scope :: S) n k P) (hvs : ∀ st, P st → ∀ v ∈ vs, v.Sound st)
    (hQ : Settles ω ((vs ++ scope) :: S) k l Q) :
    Settles ω (scope :: S) n l fun st => P st ∧ Q st := by
  intro hω st hst
  obtain ⟨st₁, h₁⟩ := hP hω st hst
  have hfits : Fits ω ((vs ++ scope) :: S) k st₁ := by
    refine ⟨(h₁ st₁ (.refl ..)).1.known.trans hst.known, fun τ hτ => ?_⟩
    obtain ⟨hagrees, hPτ⟩ := h₁ τ hτ
    obtain ⟨hscope, houter⟩ := forall_mem_cons.mp (hst.vars τ hagrees)
    exact forall_mem_cons.mpr ⟨forall_mem_append.mpr ⟨hvs τ hPτ, hscope⟩, houter⟩
  obtain ⟨st₂, h₂⟩ := hQ hω st₁ hfits
  refine ⟨st₂, fun τ hτ => ?_⟩
  obtain ⟨hτ, hQτ⟩ := h₂ τ hτ
  exact ⟨(h₁ τ hτ).1, (h₁ τ hτ).2, hQτ⟩

theorem seq (hP : Settles ω (scope :: S) n k P) (hQ : Settles ω (scope :: S) k l Q) :
    Settles ω (scope :: S) n l fun st => P st ∧ Q st := by
  have hnone : ∀ st, P st → ∀ v ∈ ([] : List Var), v.Sound st := fun _ _ _ h =>
    absurd h not_mem_nil
  exact hP.bind hnone hQ

theorem enter (h : Settles ω ([] :: S) n k P) : Settles ω S n k P :=
  fun hω st hst => h hω st ⟨hst.known, fun τ hτ =>
    forall_mem_cons.mpr ⟨forall_mem_nil _, hst.vars τ hτ⟩⟩

end Settles

/-- A variable is declared as it is described. -/
structure Describes (d : Declaration) (n : Nat) (v : Var) : Prop where
  id : v.id = n
  name : v.name = d.name
  type : v.type = d.type
  dim : v.dim = d.dim
  index : v.index = d.index
  reference : v.reference = d.reference
  alloc : v.alloc = d.alloc
  path : v.path = d.path

/-- A plain variable is described. -/
structure Declaration.IsPlain (d : Declaration) : Prop where
  type : d.type.type.isPlain
  reference : d.reference = false
  alloc : d.alloc = .slot ∨ d.alloc = .param
  dim : d.dim = none
  path : d.path = []

/-- A declaration settles the type of one more variable. -/
theorem Describes.settles (hv : Describes d n v) (hd : ω.plain → ∀ st, Fits ω S n st → d.IsPlain) :
    Settles ω S n (n + 1) fun st => v.Sound st := by
  intro hω st hst
  obtain ⟨htype, hreference, halloc, hdim, hpath⟩ := hd hω st hst
  obtain ⟨p, hp, -⟩ := Ty.exists_of_isPlain htype
  refine ⟨⟨Function.update st.type n p, st.known⟩, fun τ hτ => ⟨⟨hτ.known, fun i hi => ?_⟩, ?_, ?_⟩⟩
  · exact (hτ.type i (Nat.lt_succ_of_lt hi)).trans (Function.update_of_ne (Nat.ne_of_lt hi) ..)
  · rcases halloc with halloc | halloc <;>
      simp [Var.isPlain, hv.type, hv.reference, hv.alloc, hv.path, hv.dim, htype, hreference, halloc,
        hpath, hdim]
  · rw [hv.id, hτ.type n (Nat.lt_succ_self n), hv.type]
    show d.type.type.primitive? = some (Function.update st.type n p n)
    rw [Function.update_self, hp]

theorem declares_declare {f : Var → α} {Q : α → List Var → Nat → Prop}
    (h : ∀ v, Describes d n v → Q (f v) [v] (n + 1)) :
    Declares ω scope S n (declare here m d >>= fun v => pure (f v)) Q := by
  refine Declares.bind (P := fun v vs k => vs = [v] ∧ k = n + 1 ∧ Describes d n v) ?_ ?_
  · refine Triple.get_bind fun r hr => Declares.check fun _ => ?_
    extract_lets v
    refine Triple.bind (J := fun _ => Sits ((v :: scope) :: S) (n + 1))
      (Triple.set fun s _ => ⟨?_, ?_⟩) fun _ => ?_
    · rw [hr.scopes]
      rfl
    · rw [hr.next]
    · refine Triple.bind (J := fun _ => Sits ((v :: scope) :: S) (n + 1))
        (Triple.modify fun s hs => ⟨hs.scopes, hs.next⟩) fun _ => ?_
      exact Triple.pure fun s hs =>
        ⟨[v], n + 1, ⟨rfl, rfl, hr.next, rfl, rfl, rfl, rfl, rfl, rfl, rfl⟩, hs⟩
  · rintro v _ _ ⟨rfl, rfl, hv⟩
    exact .pure (h v hv)

theorem KnownVar.mono {W : List Nat} (h : KnownVar ω V v) (hVW : V ⊆ W) : KnownVar ω W v :=
  ⟨hVW h.number, h.type⟩

/-- What is known of the variables in scope behind a declaration. -/
theorem Known.declare {ds : List Nat} (hS : Known ω V (scope :: S))
    (hvs : ∀ v ∈ vs, KnownVar ω ds v) : Known ω (ds ++ V) ((vs ++ scope) :: S) := by
  have hold : Known ω (ds ++ V) (scope :: S) := fun sc hsc v hv =>
    (hS sc hsc v hv).mono (subset_append_right ..)
  obtain ⟨hscope, houter⟩ := forall_mem_cons.mp hold
  refine forall_mem_cons.mpr ⟨forall_mem_append.mpr ⟨fun v hv => ?_, hscope⟩, houter⟩
  exact (hvs v hv).mono (subset_append_left ..)

theorem Known.enter (hS : Known ω V S) : Known ω V ([] :: S) :=
  forall_mem_cons.mpr ⟨forall_mem_nil _, hS⟩

/-- The length of an array is held by a variable that is in scope. -/
theorem still_dimension (hS : Known ω V S) : Still ω S n (dimension here name) (· ∈ V) := by
  exact (still_lookup hS).bind fun v hv => still_checkInteger.bind fun _ _ => .pure hv.1.number

/-- The variables `vs` that a step declares are its results `ws`, which are numbered in order. -/
structure Named (ω : Premise) (S : List (List Var)) (n : Nat) (ws vs : List Var) (k : Nat) : Prop where
  eq : vs = ws.reverse
  known : ∀ v ∈ vs, KnownVar ω (ws.map Var.id) v
  numbered : Numbered n k (ws.map Var.id)
  sound : Settles ω S n k fun st => (∀ v ∈ vs, v.Sound st) ∧ ∀ w ∈ ws, w.Sound st

theorem named_nil (n : Nat) : Named ω S n [] [] n :=
  ⟨rfl, forall_mem_nil _, numbered_nil n,
    .of fun _ _ _ => ⟨forall_mem_nil _, forall_mem_nil _⟩⟩

theorem Describes.known (hv : Describes d n v) (ht : ω.integral → d.type.type.Integral) :
    (∀ w ∈ [v], KnownVar ω [v.id] w) ∧ Numbered n (n + 1) [v.id] := by
  refine ⟨forall_mem_singleton.mpr ⟨mem_singleton_self _, fun hω => ?_⟩, ?_⟩
  · rw [hv.type]
    exact ht hω
  · rw [hv.id]
    exact numbered_singleton n

theorem Describes.named (hv : Describes d n v) (ht : ω.integral → d.type.type.Integral)
    (hd : ω.plain → d.IsPlain) : Named ω S n [v] [v] (n + 1) := by
  obtain ⟨hknown, hnumbered⟩ := hv.known ht
  refine ⟨rfl, hknown, hnumbered, (hv.settles fun hω _ _ => hd hω).imp fun _ st _ hsound => ?_⟩
  exact ⟨forall_mem_singleton.mpr hsound, forall_mem_singleton.mpr hsound⟩

theorem Named.append {ws ws' vs' : List Var} (h : Named ω (scope :: S) n ws vs k)
    (h' : Named ω ((vs ++ scope) :: S) k ws' vs' l) :
    Named ω (scope :: S) n (ws ++ ws') (vs' ++ vs) l := by
  refine ⟨?_, ?_, ?_, (h.sound.bind (fun _ hst => hst.1) h'.sound).imp fun _ st _ hst => ?_⟩
  · rw [h.eq, h'.eq, reverse_append]
  · rw [map_append]
    exact forall_mem_append.mpr
      ⟨fun v hv => (h'.known v hv).mono (subset_append_right ..),
        fun v hv => (h.known v hv).mono (subset_append_left ..)⟩
  · rw [map_append]
    exact h.numbered.append h'.numbered
  · exact ⟨forall_mem_append.mpr ⟨hst.2.1, hst.1.1⟩,
      forall_mem_append.mpr ⟨hst.1.2, hst.2.2⟩⟩

mutual

theorem declares_bindName (hp : ¬ ω.plain) {scope : List Var} {n : Nat} : ∀ (path : List Nat)
    (name : BindingName) (t : Ty), (ω.integral → t.Integral) →
    Declares ω scope S n (bindName p path name t) fun ws vs k =>
      Named ω (scope :: S) n ws vs k ∧ ∀ w ∈ ws, w.dim = none ∧ w.index = p.index ∧ ¬ ω.plain
  | path, .word w, t, ht => by
    unfold bindName
    split
    · exact .pure ⟨named_nil n, forall_mem_nil _⟩
    · exact declares_declare fun v hv => ⟨hv.named ht fun hω => absurd hω hp,
        forall_mem_singleton.mpr ⟨hv.dim, hv.index, hp⟩⟩
  | path, .group ns, t, ht => by
    unfold bindName
    split
    next => exact .fail
    next ts hts =>
      exact .check fun _ => declares_bindNames path 0 ns ts (fun hω => absurd hω hp)
        fun hω => (ht hω).members hts

theorem declares_bindNames {scope : List Var} {n : Nat} : ∀ (path : List Nat) (i : Nat)
    (names : List BindingName) (ts : List Ty), (ω.plain → ts = []) →
    (ω.integral → ∀ t ∈ ts, t.Integral) →
    Declares ω scope S n (bindNames p path i names ts) fun ws vs k =>
      Named ω (scope :: S) n ws vs k ∧ ∀ w ∈ ws, w.dim = none ∧ w.index = p.index ∧ ¬ ω.plain
  | path, i, [], _, _, _ | path, i, _ :: _, [], _, _ => by
    exact .pure ⟨named_nil n, forall_mem_nil _⟩
  | path, i, name :: names, t :: ts, hnone, hts => by
    have hp : ¬ ω.plain := fun hω => cons_ne_nil _ _ (hnone hω)
    have ht := fun hω => forall_mem_cons.mp (hts hω)
    refine (declares_bindName hp _ name t fun hω => (ht hω).1).bind fun ws vs k hws => ?_
    refine (declares_bindNames path (i + 1) names ts (fun hω => absurd hω hp)
      fun hω => (ht hω).2).bind fun ws' vs' l hws' => .pure ?_
    exact ⟨hws.1.append hws'.1, forall_mem_append.mpr ⟨hws.2, hws'.2⟩⟩

end

theorem declares_destructure {names : List BindingName} {ts : List Ty} (hnone : ω.plain → ts = [])
    (hts : ω.integral → ∀ t ∈ ts, t.Integral) :
    Declares ω scope S n (destructure p names ts) fun ws vs k =>
      Named ω (scope :: S) n ws vs k ∧ ∀ w ∈ ws, w.dim = none ∧ w.index = p.index ∧ ¬ ω.plain := by
  unfold destructure
  exact .check fun _ => declares_bindNames [] 0 names ts hnone hts

/-! ## Statements -/

/-- What typing makes of a statement: it is fit for lowering, its variables are numbered in order, those
that it declares for the statements behind it are known there, and it is sound and what is written. -/
structure Placed (ω : Premise) (V : List Nat) (S : List (List Var)) (result : Ty) (n : Nat)
    (source : Stmt) (c : Core.Stmt) (vs : List Var) (k : Nat) : Prop where
  fit : c.Fit ω.demands V
  known : ∀ v ∈ vs, KnownVar ω c.declared v
  numbered : Numbered n k c.binds
  sound : Settles ω S n k fun st =>
    (c.Sound st result ∧ source.Resolves S c vs) ∧ ∀ v ∈ vs, v.Sound st

theorem placed_of_binds (hfit : c.Fit ω.demands V) (hb : c.binds = [])
    (hsound : ω.plain → ∀ st, Fits ω S n st → c.Sound st result ∧ source.Resolves S c []) :
    Placed ω V S result n source c [] n :=
  ⟨hfit, forall_mem_nil _, hb ▸ numbered_nil n,
    .of fun hω st hst => ⟨hsound hω st hst, forall_mem_nil _⟩⟩

theorem Describes.placed (hv : Describes d n v) (ht : ω.integral → d.type.type.Integral)
    (hfit : c.Fit ω.demands V) (hd : c.declared = [v.id]) (hb : c.binds = [v.id])
    (hplain : ω.plain → ∀ st, Fits ω S n st →
      d.IsPlain ∧ (v.Sound st → c.Sound st result ∧ source.Resolves S c [v])) :
    Placed ω V S result n source c [v] (n + 1) := by
  obtain ⟨hknown, hnumbered⟩ := hv.known ht
  refine ⟨hfit, hd ▸ hknown, hb ▸ hnumbered, ?_⟩
  refine (hv.settles fun hω st hst => (hplain hω st hst).1).imp fun hω st hst hsound => ?_
  exact ⟨(hplain hω st hst).2 hsound, forall_mem_singleton.mpr hsound⟩

theorem declares_bind (ht : ω.integral → d.type.type.Integral) (hx : Typed ω V (scope :: S) n e x)
    (hplain : ω.plain → ∀ st, x.Sound st → d.IsPlain ∧ x.type.type.isPlain ∧
      ∀ v, Describes d n v → source.Resolves (scope :: S) (.bind v x) [v]) :
    Declares ω scope S n (do return .bind (← declare here m d) x)
      (Placed ω V (scope :: S) result n source) := by
  refine declares_declare fun v hv => hv.placed ht hx.fit rfl rfl fun hω st hst => ?_
  have hsound := hx.sound hω st hst
  obtain ⟨hd, hplain, hresolves⟩ := hplain hω st hsound
  exact ⟨hd, fun hs => ⟨⟨hs, hplain, hsound⟩, hresolves v hv⟩⟩

theorem integral_removeReference {t : Ty} (h : t.Integral) : t.removeReference.Integral := by
  unfold Ty.removeReference
  cases hs : t.scalar? with
  | none => exact h
  | some s =>
    have hname := h.scalar hs
    unfold Scalar.removeReference?
    dsimp only [Option.bind]
    split
    · exact Ty.integral_scalar.mpr hname
    · exact h

section

variable (hS : Known ω V (scope :: S))

include hS

theorem declares_declareLocal (hs : ω.Asks s.name.isFloatFree s.isPlain)
    (hsource : ∀ {v : Var}, v.name = name → v.type = .ofScalar s →
      source.Resolves (scope :: S) (.declare v) [v]) :
    Declares ω scope S n (declareLocal here m name s) (Placed ω V (scope :: S) result n source) := by
  have hrest : ∀ d : Declaration, (∀ k, d.dim = some k → k ∈ V) →
      (ω.integral → d.type.type.Integral) →
      (ω.plain → d.IsPlain ∧ d.name = name ∧ d.type = .ofScalar s) →
      Declares ω scope S n (do return .declare (← declare here m d))
        (Placed ω V (scope :: S) result n source) := by
    intro d hd ht hdp
    refine declares_declare fun v hv => hv.placed ht ?_ rfl rfl fun hω _ _ => ?_
    · intro _ k hk
      exact hd k (hv.dim ▸ hk)
    · obtain ⟨hd, hname, htype⟩ := hdp hω
      exact ⟨hd, fun hs => ⟨by simpa only [Core.Stmt.Sound] using hs,
        hsource (hv.name.trans hname) (hv.type.trans htype)⟩⟩
  refine Still.read.declares fun env _ => still_checkScalar.declares fun _ hplain =>
    .check fun _ => ?_
  have htype : ω.integral → (Ty.scalar s).Integral := fun hω => Ty.integral_scalar.mpr (hs.first hω)
  split
  next harray =>
    have hp : ¬ ω.plain := fun hω => by simp [isArray_eq (hplain (hs.second hω))] at harray
    split
    · refine (Still.map (still_dimension hS) (Q := fun d => ∀ k, d = some k → k ∈ V) ?_).declares
        fun d hd => hrest _ hd htype fun hω => absurd hω hp
      intro k hk l hl
      exact Option.some.inj hl ▸ hk
    · exact (Still.fail (P := fun _ => False)).declares fun _ h => h.elim
    · refine (Still.pure (P := fun d => ∀ k, d = some k → k ∈ V) ?_).declares fun d hd =>
        hrest _ hd htype fun hω => absurd hω hp
      intro k hk
      cases hk
  next =>
    refine hrest _ ?_ htype fun hω =>
      ⟨⟨hplain (hs.second hω), rfl, .inl rfl, rfl, rfl⟩, rfl, rfl⟩
    intro k hk
    cases hk

theorem declares_initLocal {declared : Option Scalar}
    (hs : ω.Asks (∀ s ∈ declared, s.name.isFloatFree) (∀ s ∈ declared, s.isPlain))
    (hinit : ω.Asks init.isFloatFree init.isPlain)
    (hsource : ∀ {v : Var} {x : Core.Expr}, v.IsFor name declared x.type →
      init.Resolves (scope :: S) x → source.Resolves (scope :: S) (.bind v x) [v]) :
    Declares ω scope S n (initLocal here m name declared init)
      (Placed ω V (scope :: S) result n source) := by
  have hunreferenced : ∀ (c : Prop) [Decidable c] (type : ExprTy), type.type.Integral →
      (if c then ExprTy.val type.type.removeReference else type).type.Integral := by
    intro c _ type htype
    split
    · exact integral_removeReference htype
    · exact htype
  have hnotCall : (Core.Allocation.slot == Core.Allocation.call) = false := rfl
  refine Still.read.declares fun env _ => (still_expr hS init hinit).declares fun x hx => ?_
  split
  next s hdeclared =>
    have hmem := (Option.filter_eq_some_iff.mp hdeclared).1
    refine still_checkScalar.declares fun _ hplain =>
      still_checkAssign.declares fun _ hv => ?_
    refine (Still.pure (P := fun t => t = .ofScalar s) rfl).declares fun type htype => ?_
    subst htype
    refine declares_bind (fun hω => hunreferenced _ _ (Ty.integral_scalar.mpr (hs.first hω s hmem))) hx
      fun hω st hsound => ?_
    simp only [allocation_eq hsound, hnotCall, Bool.false_and, Bool.false_eq_true, if_false, ite_self]
    refine ⟨⟨hplain (hs.second hω s hmem), rfl, .inl rfl, rfl, rfl⟩,
      hsound.type_isResult.isPlain hv, fun v hv => hsource ⟨hv.name, ?_⟩ (hx.resolves hω)⟩
    rw [hdeclared]
    exact hv.type
  next hdeclared =>
    refine .check fun _ => .check fun hv => ?_
    have hv : x.type.isVoid = false := by simpa using hv
    refine (Still.pure (P := fun t => t = x.type) rfl).declares fun type htype => ?_
    subst htype
    refine declares_bind (fun hω => hunreferenced _ _ (hx.type hω)) hx
      fun hω st hsound => ?_
    have hplain := hsound.type_isResult.isPlain hv
    simp only [allocation_eq hsound, hnotCall, Bool.false_and, Bool.false_eq_true, if_false, ite_self]
    refine ⟨⟨hplain, rfl, .inl rfl, rfl, rfl⟩, hplain, fun v hv =>
      hsource ⟨hv.name, ?_⟩ (hx.resolves hω)⟩
    rw [hdeclared]
    exact hv.type

theorem declares_referenceLocal (hinit : ω.Asks init.isFloatFree False) :
    Declares ω scope S n (referenceLocal here m name init)
      (Placed ω V (scope :: S) result n source) := by
  refine Still.read.declares fun env _ =>
    (still_expr hS init (hinit.mono id False.elim)).declares fun x hx => ?_
  split
  next =>
    exact declares_bind hx.type hx fun hω => (hinit.second hω).elim
  next =>
    split
    next v =>
      refine .check fun _ => ?_
      split
      next => exact .fail
      next s hs =>
        refine declares_bind (fun hω => ?_) hx fun hω => (hinit.second hω).elim
        have hname := (hx.type hω).scalar hs
        exact Ty.integral_scalar.mpr hname
    next => exact .fail

/-! ## Stores -/

theorem still_assign (hvalue : ω.Asks value.isFloatFree value.isPlain) :
    Still ω (scope :: S) n (assign here m name value) fun c =>
      Placed ω V (scope :: S) result n (.assign m name value) c [] n := by
  refine (still_lookup hS).bind fun v hv => .check fun _ => .check fun _ => ?_
  refine (still_expr hS value hvalue).bind fun x hx => Still.read.bind fun env _ => ?_
  refine still_checkAssign.bind fun _ hvoid => Still.note.bind fun _ _ =>
    .pure (placed_of_binds ⟨fun _ => hv.1.number, hx.fit⟩ rfl fun hω st hst => ?_)
  have hsound := hx.sound hω st hst
  exact ⟨⟨hv.2.1 st hst, hsound.type_isResult.isPlain hvoid, hsound⟩,
    .assign hv.2.2 (hx.resolves hω)⟩

theorem still_fieldAssign {target : QualName} (hvalue : ω.Asks value.isFloatFree False) :
    Still ω (scope :: S) n (fieldAssign here m target value) fun c =>
      Placed ω V (scope :: S) result n source c [] n := by
  refine (still_fieldPath hS).bind fun r hr => .check fun _ => ?_
  exact (still_expr hS value (hvalue.mono id False.elim)).bind fun x hx =>
    Still.read.bind fun env _ => still_checkAssign.bind fun _ _ =>
      .pure (placed_of_binds ⟨fun _ => hr.1.number, hx.fit⟩ rfl fun hω => (hvalue.second hω).elim)

theorem still_indexAssign {target : Mark} {array index : Expr}
    (h : ω.Asks ((array.isFloatFree ∧ index.isFloatFree) ∧ value.isFloatFree) False) :
    Still ω (scope :: S) n (indexAssign here target array index value) fun c =>
      Placed ω V (scope :: S) result n source c [] n := by
  refine (still_expr hS array (h.mono (·.1.1) False.elim)).bind fun x hx => ?_
  refine (still_expr hS index (h.mono (·.1.2) False.elim)).bind fun i hi => ?_
  refine (still_element hx).bind fun r _ => Still.note.bind fun _ _ => ?_
  obtain ⟨checked, elem⟩ := r
  have hrest : Still ω (scope :: S) n (do
      let y ← expr value
      lift ((← read).checkAssign value.site "element assignment" (.scalar elem) y.type)
      return Core.Stmt.indexAssign x i checked elem y) fun c =>
        Placed ω V (scope :: S) result n source c [] n := by
    refine (still_expr hS value (h.mono And.right False.elim)).bind fun y hy =>
      Still.read.bind fun env _ => ?_
    exact still_checkAssign.bind fun _ _ =>
      .pure (placed_of_binds ⟨hx.fit, hi.fit, hy.fit⟩ rfl fun hω => (h.second hω).elim)
  refine .check fun _ => ?_
  split
  · exact .check fun _ => hrest
  · exact hrest

theorem still_free (hp : ¬ ω.plain) : Still ω (scope :: S) n (free here m name) fun c =>
    Placed ω V (scope :: S) result n source c [] n := by
  refine (still_lookup hS).bind fun v hv => .check fun _ => Still.read.bind fun env _ =>
    .check fun _ => ?_
  exact Still.note.bind fun _ _ => .pure (placed_of_binds (fun _ => hv.1.number) rfl
    fun hω => absurd hω hp)

theorem still_ret {value : Option Expr} (hresult : ω.plain → IsResult result)
    (hvalue : ω.Asks (∀ e ∈ value, e.isFloatFree) (∀ e ∈ value, e.isPlain)) :
    Still ω (scope :: S) n (ret here result value) fun c =>
      Placed ω V (scope :: S) result n (.ret m value) c [] n := by
  unfold ret
  split
  next =>
    refine .check fun hvoid => .pure (placed_of_binds trivial rfl fun _ _ _ => ?_)
    have hvoid : result.primitive? = some .void := by simpa [Ty.isVoid] using hvoid
    exact ⟨hvoid, .retVoid⟩
  next e =>
    refine .check fun hnone => (still_expr hS e (hvalue.mono (· e rfl) (· e rfl))).bind
      fun x hx => ?_
    refine Still.read.bind fun env _ => still_checkAssign.bind fun _ hvoid =>
      .pure (placed_of_binds hx.fit rfl fun hω st hst => ?_)
    have hsound := hx.sound hω st hst
    exact ⟨⟨rfl, (hresult hω).isPlain (by simpa using hnone),
      hsound.type_isResult.isPlain hvoid, hsound⟩, .ret (hx.resolves hω)⟩

end

theorem Still.placed {x : Typing Core.Stmt}
    (hx : Still ω (scope :: S) n x fun c => Placed ω V (scope :: S) result n source c [] n) :
    Declares ω scope S n x (Placed ω V (scope :: S) result n source) :=
  Triple.after hx fun _ _ hs => ⟨[], n, hs⟩

/-! ## Bodies -/

mutual

/-- Statements are typed one behind the other, each with the variables of those in front of it. -/
theorem declares_stmt (hresult : ω.plain → IsResult result) {scope : List Var} {S : List (List Var)}
    {n : Nat} {V : List Nat} (hS : Known ω V (scope :: S)) : ∀ x : Stmt,
    ω.Asks x.isFloatFree x.isPlain →
    Declares ω scope S n (stmt result x) (Placed ω V (scope :: S) result n x)
  | .expr m x, h => by
    refine Still.placed ((still_expr hS x h).bind fun y hy => ?_)
    exact .pure (placed_of_binds hy.fit rfl fun hω st hst =>
      ⟨hy.sound hω st hst, .expr (hy.resolves hω)⟩)
  | .declare m type name, h => by
    unfold stmt
    exact .check fun _ => declares_declareLocal hS h .declare
  | .define m type name value, h => by
    simp only [Stmt.isFloatFree, Stmt.isPlain, Bool.and_eq_true] at h
    exact declares_initLocal hS (by simpa using h.left) h.right .define
  | .immutable m name value, h => by
    unfold stmt
    exact declares_initLocal hS ⟨by simp, by simp⟩ h .immutable
  | .mutable m type name (some value), h => by
    simp only [Stmt.isFloatFree, Stmt.isPlain, Bool.and_eq_true, Option.all_eq_true,
      Option.all_some] at h
    exact declares_initLocal hS h.left h.right .mutable
  | .mutable m (some type) name none, h => by
    simp only [Stmt.isFloatFree, Stmt.isPlain, Bool.and_eq_true, Option.all_some] at h
    exact declares_declareLocal hS h.left .mutableDeclare
  | .mutable m none name none, h => by
    exact .fail
  | .reference m name value, h => by
    exact declares_referenceLocal hS h.only
  | .destructure m names value, h => by
    refine (still_expr hS value h.only).declares fun x hx => ?_
    split
    next => exact .fail
    next ts hts =>
      refine .check fun _ => (declares_destructure (fun hω => absurd hω h.never) fun hω =>
        (hx.type hω).members hts).bind fun ws vs k hws =>
          .pure ⟨hx.fit, ?_, ?_, fun hω => absurd hω h.never⟩
      · exact hws.1.known
      · exact hws.1.numbered
  | .assign m name value, h => by
    exact (still_assign hS h).placed
  | .fieldAssign m target value, h => by
    exact (still_fieldAssign hS h.only).placed
  | .indexAssign m target x i value, h => by
    simp only [Stmt.isFloatFree, Stmt.isPlain, Bool.and_eq_true, Bool.false_eq_true] at h
    exact (still_indexAssign hS h).placed
  | .branch m cond body rest, h => by
    simp only [Stmt.isFloatFree, Stmt.isPlain, Bool.and_eq_true] at h
    refine (still_condition hS h.left.left).declares fun c hc => ?_
    refine (declares_inBlock (declares_stmts hresult hS.enter body h.left.right)).bind
      fun b vs k hb => ?_
    obtain ⟨rfl, hb⟩ := hb
    refine (declares_otherwise hresult hS rest h.right).bind fun r vs l hr => .pure ?_
    obtain ⟨rfl, hr⟩ := hr
    refine ⟨⟨hc.1.fit, hb.1, hr.1⟩, forall_mem_nil _, ?_,
      (hb.2.2.enter.seq hr.2.2).imp fun hω st hst hsound => ⟨?_, forall_mem_nil _⟩⟩
    · exact hb.2.1.append hr.2.1
    · exact ⟨⟨eq_of_beq hc.2, hc.1.sound hω st hst, hsound.1.1, hsound.2.1⟩,
        .branch (hc.1.resolves hω) hsound.1.2 hsound.2.2⟩
  | .loop m cond body, h => by
    simp only [Stmt.isFloatFree, Stmt.isPlain, Bool.and_eq_true] at h
    refine (still_condition hS h.left).declares fun c hc => ?_
    refine (declares_inBlock (declares_stmts hresult hS.enter body h.right)).bind
      fun b vs k hb => .pure ?_
    obtain ⟨rfl, hb⟩ := hb
    refine ⟨⟨hc.1.fit, hb.1⟩, forall_mem_nil _, hb.2.1,
      hb.2.2.enter.imp fun hω st hst hsound => ⟨?_, forall_mem_nil _⟩⟩
    exact ⟨⟨eq_of_beq hc.2, hc.1.sound hω st hst, hsound.1⟩, .loop (hc.1.resolves hω) hsound.2⟩
  | .ret m value, h => by
    simp only [Stmt.isFloatFree, Stmt.isPlain, Option.all_eq_true] at h
    exact (still_ret hS hresult h).placed
  | .free m name, h => by
    exact (still_free hS h.never).placed

theorem declares_stmts (hresult : ω.plain → IsResult result) {scope : List Var} {S : List (List Var)}
    {n : Nat} {V : List Nat} (hS : Known ω V (scope :: S)) : ∀ xs : List Stmt,
      ω.Asks (Stmt.allFloatFree xs) (Stmt.allPlain xs) →
      Declares ω scope S n (stmts result xs) fun cs _ k =>
        Core.Stmt.FitAll ω.demands V cs ∧ Numbered n k (Core.Stmt.bindsAll cs) ∧
          Settles ω (scope :: S) n k fun st =>
            Core.SoundStmts st result cs ∧ Stmt.AllResolve scope S xs cs
  | [], h => by
    refine .pure ?_
    exact ⟨trivial, numbered_nil n, .of fun _ _ _ => ⟨trivial, .nil⟩⟩
  | x :: xs, h => by
    simp only [Stmt.allFloatFree, Stmt.allPlain, Bool.and_eq_true] at h
    refine (declares_stmt hresult hS x h.left).bind fun c vs k hc => ?_
    refine (declares_stmts hresult (hS.declare hc.known) xs h.right).bind fun cs ws l hcs => .pure ?_
    exact ⟨⟨hc.fit, hcs.1⟩, hc.numbered.append hcs.2.1,
      (hc.sound.bind (fun _ hst => hst.2) hcs.2.2).imp fun _ _ _ hst =>
        ⟨⟨hst.1.1.1, hst.2.1⟩, .cons hst.1.1.2 hst.2.2⟩⟩

theorem declares_otherwise (hresult : ω.plain → IsResult result) {scope : List Var}
    {S : List (List Var)} {n : Nat} {V : List Nat} (hS : Known ω V (scope :: S)) : ∀ x : Otherwise,
      ω.Asks x.isFloatFree x.isPlain → Declares ω scope S n (otherwise result x) fun r vs k =>
        vs = [] ∧ r.Fit ω.demands V ∧ Numbered n k r.binds ∧
          Settles ω (scope :: S) n k fun st => r.Sound st result ∧ x.Resolves (scope :: S) r
  | .none, h => by
    refine .pure ⟨rfl, ?_⟩
    exact ⟨trivial, numbered_nil n, .of fun _ _ _ => ⟨trivial, .none⟩⟩
  | .elseIf m cond body rest, h => by
    simp only [Otherwise.isFloatFree, Otherwise.isPlain, Bool.and_eq_true] at h
    refine (still_condition hS h.left.left).declares fun c hc => ?_
    refine (declares_inBlock (declares_stmts hresult hS.enter body h.left.right)).bind
      fun b vs k hb => ?_
    obtain ⟨rfl, hb⟩ := hb
    refine (declares_otherwise hresult hS rest h.right).bind fun r vs l hr => .pure ?_
    obtain ⟨rfl, hr⟩ := hr
    refine ⟨rfl, ?_⟩
    exact ⟨⟨hc.1.fit, hb.1, hr.1⟩, hb.2.1.append hr.2.1,
      (hb.2.2.enter.seq hr.2.2).imp fun hω st hst hsound =>
        ⟨⟨eq_of_beq hc.2, hc.1.sound hω st hst, hsound.1.1, hsound.2.1⟩,
          .elseIf (hc.1.resolves hω) hsound.1.2 hsound.2.2⟩⟩
  | .final m body, h => by
    refine (declares_inBlock (declares_stmts hresult hS.enter body h)).bind
      fun b vs k hb => .pure ?_
    obtain ⟨rfl, hb⟩ := hb
    refine ⟨rfl, ?_⟩
    exact ⟨hb.1, hb.2.1, hb.2.2.enter.imp fun _ _ _ h => ⟨h.1, .final h.2⟩⟩

end

/-! ## Methods -/

theorem sizesIn_of_none : ∀ {ws : List Var} {V : List Nat}, (∀ w ∈ ws, w.dim = none) →
    Core.Var.SizesIn V ws
  | [], _, _ => by
    trivial
  | w :: ws, V, h => by
    obtain ⟨hw, hws⟩ := forall_mem_cons.mp h
    refine ⟨fun d hd => ?_, sizesIn_of_none hws⟩
    rw [hw] at hd
    cases hd

theorem sizesIn_append : ∀ {ws ws' : List Var} {V : List Nat}, Core.Var.SizesIn V ws →
    Core.Var.SizesIn ((ws.map Var.id).reverse ++ V) ws' → Core.Var.SizesIn V (ws ++ ws')
  | [], ws', V, _, h' => h'
  | w :: ws, ws', V, h, h' => by
    rw [map_cons, reverse_cons, append_assoc] at h'
    exact ⟨h.1, sizesIn_append h.2 h'⟩

/-- The variables of a parameter belong to its place. -/
theorem declares_declareParam {m : Method} {i : Nat} {p : Param} (hS : Known ω V (scope :: S))
    (hp : ω.integral → p.type.Integral) (hplain : ω.plain → p.type.isPlain) :
    Declares ω scope S n (declareParam m i p) fun ws vs k => Named ω (scope :: S) n ws vs k ∧
      Core.Var.SizesIn V ws ∧
        ∀ w ∈ ws, w.index = i ∧ (ω.plain → p.name = .word w.name ∧ w.type = .val p.type) := by
  have hrest : ∀ d : Declaration, (∀ k, d.dim = some k → k ∈ V) → p.name = .word d.name →
      d.type = .val p.type → d.index = i → (ω.plain → d.IsPlain) →
      Declares ω scope S n (do return [← declare m.site m.mark d]) fun ws vs k =>
        Named ω (scope :: S) n ws vs k ∧ Core.Var.SizesIn V ws ∧
          ∀ w ∈ ws, w.index = i ∧ (ω.plain → p.name = .word w.name ∧ w.type = .val p.type) := by
    refine fun d hd hname ht hi hdp => declares_declare fun v hv => ⟨hv.named (ht ▸ hp) hdp, ?_, ?_⟩
    · simp only [Core.Var.SizesIn, and_true]
      intro k hk
      exact hd k (hv.dim ▸ hk)
    · exact forall_mem_singleton.mpr ⟨hv.index.trans hi, fun _ =>
        ⟨hv.name ▸ hname, hv.type.trans ht⟩⟩
  have hshape : ω.plain → p.type.depth = 0 ∧ p.type.members? = none ∧
      ∃ s, p.type.scalar? = some s ∧ s.dims = [] := by
    intro hω
    obtain ⟨q, hq, hqp⟩ := Ty.exists_of_isPlain (hplain hω)
    have hdepth : p.type.depth = 0 := IsResult.depth_eq ⟨q, hq, .inl hqp⟩
    obtain ⟨s, hs, hdims, -⟩ := Ty.scalar_of_primitive? hq
    refine ⟨hdepth, ?_, s, hs, hdims⟩
    simpa [Ty.isTuple, hdepth] using Ty.isTuple_of_primitive? hq
  unfold declareParam
  split
  next w hname =>
    dsimp only
    split
    next dim hdim =>
      refine (Still.map (still_dimension hS) (Q := fun d => ∀ k, d = some k → k ∈ V) ?_).declares
        fun d hd => hrest _ hd hname rfl rfl fun hω => ?_
      · intro k hk l hl
        exact Option.some.inj hl ▸ hk
      · obtain ⟨-, -, s, hs, hdims⟩ := hshape hω
        simp [hs, Scalar.firstDim, hdims] at hdim
    next =>
      refine (Still.pure (P := fun d => d = none) rfl).declares fun d hd =>
        hrest _ (fun k hk => ?_) hname rfl rfl fun hω =>
          ⟨hplain hω, by simp [(hshape hω).1], .inr rfl, hd, rfl⟩
      cases hd.symm.trans hk
  next names =>
    refine (declares_destructure (fun hω => ?_) fun hω t ht => ?_).mono fun ws vs k hws =>
      ⟨hws.1, sizesIn_of_none fun w hw => (hws.2 w hw).1,
        fun w hw => ⟨(hws.2 w hw).2.1, fun hω => absurd hω (hws.2 w hw).2.2⟩⟩
    · rw [(hshape hω).2.1]
      rfl
    · cases hts : p.type.members? with
      | none => simp [hts] at ht
      | some ts =>
        rw [hts] at ht
        exact (hp hω).members hts t ht

theorem declares_declareParams {m : Method} {scope : List Var} {n : Nat} {V : List Nat}
    (hS : Known ω V (scope :: S)) : ∀ (i : Nat) (ps : List Param),
      (ω.integral → ∀ p ∈ ps, p.type.Integral) → (ω.plain → ∀ p ∈ ps, p.type.isPlain) →
      Declares ω scope S n (declareParams m i ps) fun ws vs k => Named ω (scope :: S) n ws vs k ∧
        Core.Var.SizesIn V ws ∧ ∀ w ∈ ws, ∃ (j : Nat) (p : Param), ps[j]? = some p ∧
          w.index = i + j ∧ (ω.plain → p.name = .word w.name ∧ w.type = .val p.type)
  | _, [], _, _ => by
    exact .pure ⟨named_nil n, trivial, forall_mem_nil _⟩
  | i, p :: ps, hps, hplain => by
    have hp := fun hω => forall_mem_cons.mp (hps hω)
    have hpp := fun hω => forall_mem_cons.mp (hplain hω)
    refine (declares_declareParam hS (fun hω => (hp hω).1) fun hω => (hpp hω).1).bind
      fun ws vs k hws => ?_
    have hknown : ∀ v ∈ vs, KnownVar ω (ws.map Var.id).reverse v := fun v hv =>
      (hws.1.known v hv).mono fun _ => mem_reverse.mpr
    refine (declares_declareParams (hS.declare hknown) (i + 1) ps (fun hω => (hp hω).2)
      fun hω => (hpp hω).2).bind fun ws' vs' l hws' =>
        .pure ⟨hws.1.append hws'.1, sizesIn_append hws.2.1 hws'.2.1, ?_⟩
    refine forall_mem_append.mpr ⟨fun w hw => ?_, fun w hw => ?_⟩
    · obtain ⟨hindex, htype⟩ := hws.2.2 w hw
      exact ⟨0, p, rfl, by omega, htype⟩
    · obtain ⟨j, q, hj, hindex, htype⟩ := hws'.2.2 w hw
      exact ⟨j + 1, q, hj, by omega, htype⟩

/-- What typing makes of a method. -/
structure MethodPlaced (a : Core.Demands) (f : MethodDef) (n k : Nat) (m : Core.Method) : Prop where
  origin : m.origin = f
  fit : m.Fit a
  numbered : Numbered n k m.binds
  returns : f.method.result.unnamed.isVoid = false → Core.anyReturns m.body

theorem known_start : Known ω V [[]] :=
  Known.enter fun _ h => absurd h not_mem_nil

theorem fits_start {st : Setting} (h : st.known = ω.known) : Fits ω [[]] n st :=
  ⟨h, fun _ _ => forall_mem_singleton.mpr fun _ h => absurd h not_mem_nil⟩

/-- Typing a method starts with its parameters, and goes on with its body. -/
theorem triple_method {f : MethodDef} (hparams : ω.integral → ∀ p ∈ f.method.params, p.type.Integral)
    (hfree : ω.integral → Stmt.allFloatFree f.method.body) (hplain : ω.plain → f.method.isPlain) :
    Triple ω.Sees (fun s => s.nextVar = n) (method f)
      (fun m s => MethodPlaced ω.demands f n s.nextVar m ∧
        Settles ω [[]] n s.nextVar fun st => m.Sound st)
      fun e _ => e.Allowed True := by
  simp only [Method.isPlain, Bool.and_eq_true] at hplain
  have hresult := fun hω => Method.isResult_result (hplain hω).1.1
  have htypes := fun hω ty hty => Method.isPlain_of_mem (t := ty) (hplain hω).1.1 hty
  refine Triple.bind (J := fun _ => Sits [[]] n) (Triple.modify fun s hs => ⟨rfl, hs⟩) fun _ => ?_
  have hbody : Declares ω [] [] n (do
      let vars ← declareParams f.method 0 f.method.params
      let body ← stmts f.method.result.unnamed f.method.body
      if !f.method.result.unnamed.isVoid && !Core.anyReturns body then
        fail f.method.site (.missingReturn f.method.name)
      return ⟨f, vars, body⟩) fun m _ k =>
        MethodPlaced ω.demands f n k m ∧ Settles ω [[]] n k fun st => m.Sound st := by
    refine (declares_declareParams (V := []) known_start 0 _ hparams fun hω p hp =>
      htypes hω _ (mem_map_of_mem hp)).bind fun ws vs k hws => ?_
    have hknown : Known ω (ws.map Var.id) ((vs ++ []) :: []) := by
      have h := (known_start (V := [])).declare hws.1.known
      rw [append_nil (ws.map Var.id)] at h
      exact h
    refine (declares_stmts hresult hknown _ ⟨hfree, fun hω => (hplain hω).2⟩).bind
      fun body us l hbody => .check fun hret => ?_
    have hnumbered := hws.1.numbered.append hbody.2.1
    refine .pure ⟨⟨rfl, ⟨fun _ => hws.2.1, fun _ w hw => ?_, hbody.1⟩, hnumbered,
      fun hvoid => by simpa [hvoid] using hret⟩,
      (hws.1.sound.bind (fun _ hst => hst.1) hbody.2.2).imp fun hω st _ hst =>
        ⟨hresult hω, hst.1.2, hst.2.1, fun w hw => ?_, ?_, hnumbered.nodup⟩⟩
    · obtain ⟨j, p, hj, hindex, -⟩ := hws.2.2 w hw
      have hlt := (List.getElem?_eq_some_iff.mp hj).1
      show w.index.toNat < f.method.params.length
      omega
    · obtain ⟨j, p, hj, hindex, htype⟩ := hws.2.2 w hw
      refine ⟨p, ?_, htype hω⟩
      rw [hindex, show ((0 : Nat) + (j : Int)).toNat = j by omega]
      exact hj
    · have h := hst.2.2
      rwa [append_nil, hws.1.eq] at h
  refine Triple.after hbody fun m s hm => ?_
  obtain ⟨vs, k, hm, hs⟩ := hm
  exact hs.next ▸ hm

/-- Default values use no variables, and declare none. -/
theorem triple_defaults {c : ClassDef} : ∀ fs : List FieldDef,
    (ω.integral → ∀ f ∈ fs, ∀ e ∈ f.value, e.isFloatFree) → ¬ ω.plain →
    Triple ω.Sees (fun s => s.nextVar = n) (defaults c fs)
      (fun ds s => (∀ d ∈ ds, d.value.Fit ω.demands []) ∧ s.nextVar = n) fun e _ => e.Allowed True
  | [], _, _ => by
    exact .pure fun s hs => ⟨forall_mem_nil _, hs⟩
  | f :: fs, hfs, hp => by
    have hf := fun hω => forall_mem_cons.mp (hfs hω)
    have hrest := triple_defaults (c := c) fs (fun hω => (hf hω).2) hp
    unfold defaults
    split
    next => exact hrest
    next e he =>
      refine Triple.bind (J := fun _ => Sits [[]] n) (Triple.modify fun s hs => ⟨rfl, hs⟩) fun _ => ?_
      refine Triple.bind (still_expr (V := []) known_start e
        ⟨fun hω => (hf hω).1 e he, fun hω => absurd hω hp⟩) fun x => Triple.known fun hx => ?_
      refine Triple.bind Still.read fun env => Triple.known fun _ => ?_
      refine Triple.bind still_checkAssign fun _ => Triple.known fun hv => ?_
      refine Triple.bind (Triple.before hrest fun s hs => hs.next) fun ds => ?_
      exact .pure fun s hs => ⟨forall_mem_cons.mpr ⟨hx.fit, hs.1⟩, hs.2⟩

end SsaCompiler.Typing
