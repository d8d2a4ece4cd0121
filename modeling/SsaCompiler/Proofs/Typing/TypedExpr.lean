import SsaCompiler.Proofs.Lowering.Bodies
import SsaCompiler.Proofs.Typing.Integral
import SsaCompiler.Proofs.Typing.Plain

/-!
# Typed expressions

Typing resolves a name to a variable that is in scope, so the variables of a typed expression are among
those in scope where it stands. Expressions declare nothing. If typing fails, this is the fault of the
program, or a class is not found.

What typing makes of an integral expression has an integral type, and all methods that it calls are
found. What it makes of a plain expression is what the expression stands for, and sound in every setting
in which the variables in scope are.

The first holds of all programs, the second of those without floating-point numbers and the third of
plain ones. All are shown in one go, with a `Premise` that says of which kinds the program is.
-/

namespace SsaCompiler

open List
open Core (ExprTy Setting Var Step)

variable {cause : Cause}

namespace Core.Expr

theorem fitAll_iff {a : Demands} {V : List Nat} :
    ∀ {xs : List Core.Expr}, FitAll a V xs ↔ ∀ x ∈ xs, x.Fit a V
  | [] => by simp [FitAll]
  | x :: xs => by simp [FitAll, fitAll_iff]

theorem types_eq : ∀ xs : List Core.Expr, types xs = xs.map fun x => x.type.type
  | [] => rfl
  | x :: xs => by simp [types, types_eq xs]

end Core.Expr

namespace Typing

/-- What typing may rely on: whether the program is integral, whether it is plain, and which methods
are found and known then. -/
structure Premise where
  integral : Prop
  plain : Prop
  found : MethodDef → Prop
  known : MethodDef → Prop

/-- What is asked of a program: `p` if it is integral, and `q` if it is plain. -/
abbrev Premise.Asks (ω : Premise) (p q : Prop) : Prop :=
  SsaCompiler.Asks ω.integral ω.plain p q

/-- What is demanded of typed expressions: their variables are always in scope. -/
abbrev Premise.demands (ω : Premise) : Core.Demands :=
  ⟨True, ω.integral, ω.found⟩

/-- What is presumed of the environment. -/
structure Premise.Sees (ω : Premise) (env : Env) : Prop where
  integral : ω.integral → env.Integral ω.found
  plain : ω.plain → env.IsPlain ω.known

variable {α β : Type} {ω : Premise} {env : Env} {S : List (List Var)} {V : List Nat} {n : Nat}
  {here : Site} {m : Mark} {name : String} {q : QualName} {s : Scalar} {t : ExprTy} {v : Var}
  {kind : Token.Kind} {text : String} {p : Primitive} {x y : Core.Expr} {args : List Core.Expr}
  {source source' : Expr} {sources : List Expr}

/-- What is known of a variable in scope. -/
structure KnownVar (ω : Premise) (V : List Nat) (v : Var) : Prop where
  number : v.id ∈ V
  type : ω.integral → v.type.type.Integral

/-- What is known of all variables in scope. -/
def Known (ω : Premise) (V : List Nat) (S : List (List Var)) : Prop :=
  ∀ scope ∈ S, ∀ v ∈ scope, KnownVar ω V v

/-- The variables in scope are sound in a setting, whatever the types of variables from number `n` on
are. -/
structure Fits (ω : Premise) (S : List (List Var)) (n : Nat) (c : Setting) : Prop where
  known : c.known = ω.known
  vars : ∀ c', c.Agrees n c' → ∀ scope ∈ S, ∀ v ∈ scope, v.Sound c'

theorem Fits.agrees {c c' : Setting} (h : Fits ω S n c) (hc : c.Agrees n c') : Fits ω S n c' :=
  ⟨hc.known.trans h.known, fun _ hc' => h.vars _ (hc.trans hc')⟩

/-- What is known of an expression as typing makes it of the one that is written. -/
structure Typed (ω : Premise) (V : List Nat) (S : List (List Var)) (n : Nat) (source : Expr)
    (x : Core.Expr) : Prop where
  fit : x.Fit ω.demands V
  type : ω.integral → x.type.type.Integral
  sound : ω.plain → ∀ c, Fits ω S n c → x.Sound c
  resolves : ω.plain → source.Resolves S x

theorem Typed.other (hp : ¬ ω.plain) (hfit : x.Fit ω.demands V)
    (htype : ω.integral → x.type.type.Integral) : Typed ω V S n source x :=
  ⟨hfit, htype, fun hω => absurd hω hp, fun hω => absurd hω hp⟩

theorem Typed.all {P : Core.Expr → Prop} (h : ∀ {e x}, Typed ω V S n e x → P x) :
    ∀ {es xs}, Forall₂ (Typed ω V S n) es xs → ∀ x ∈ xs, P x
  | _, _, .nil => forall_mem_nil _
  | _, _, .cons hx hxs => forall_mem_cons.mpr ⟨h hx, Typed.all h hxs⟩

/-! ## Steps of typing -/

/-- The variables in scope, and the number of the next one. -/
structure Sits (S : List (List Var)) (n : Nat) (s : TypingState) : Prop where
  scopes : s.scopes = S
  next : s.nextVar = n

/-- A step of typing that leaves the scopes as they are, and whose result has a property. -/
def Still (ω : Premise) (S : List (List Var)) (n : Nat) (x : Typing α) (Q : α → Prop) : Prop :=
  Triple ω.Sees (Sits S n) x (fun a s => Q a ∧ Sits S n s) fun e _ => e.Allowed True

namespace Still

variable {x : Typing α} {f : α → Typing β} {P : α → Prop} {Q : β → Prop}

theorem bind (hx : Still ω S n x P) (hf : ∀ a, P a → Still ω S n (f a) Q) :
    Still ω S n (x >>= f) Q :=
  Triple.bind hx fun a => Triple.known (hf a)

theorem pure {a : α} (h : P a) : Still ω S n (pure a) P :=
  Triple.pure fun _ hs => ⟨h, hs⟩

theorem map {k : α → β} (hx : Still ω S n x P) (h : ∀ a, P a → Q (k a)) :
    Still ω S n (k <$> x) Q :=
  Triple.map hx fun a _ hs => ⟨h a hs.1, hs.2⟩

theorem mono {P' : α → Prop} (hx : Still ω S n x P) (h : ∀ a, P a → P' a) : Still ω S n x P' :=
  Triple.after hx fun a _ hs => ⟨h a hs.1, hs.2⟩

theorem fail : Still ω S n (Typing.fail here cause : Typing α) P :=
  Triple.throw fun _ _ => trivial

theorem check {c : Prop} [Decidable c] {k : Unit → Typing β} (h : ¬ c → Still ω S n (k ()) Q) :
    Still ω S n (if c then Typing.fail here cause >>= k else k ()) Q := by
  split
  next => exact fail.bind (P := fun _ => False) fun _ => False.elim
  next hc => exact h hc

theorem read : Still ω S n read ω.Sees :=
  Triple.read fun _ _ henv hs => ⟨henv, hs⟩

/-- What is checked without a look at the state fails through the fault of the program. -/
theorem lift {y : Except Failure α} (hy : Computes y P) : Still ω S n (Typing.lift y) P := by
  intro env s _ hs
  refine ⟨fun a t hr => ?_, fun e t he => ?_⟩
  · obtain ⟨ha, rfl⟩ := runs_lift.mp hr
    exact ⟨hy.result a ha, hs⟩
  · exact hy.allowed e (fails_lift.mp he).1

theorem note {e : Fact} : Still ω S n (Typing.note e) fun _ => True :=
  Triple.modify fun _ hs => ⟨trivial, hs.scopes, hs.next⟩

theorem recorded {y : Typing Core.Expr} {P : Core.Expr → Prop} (h : Still ω S n y P) :
    Still ω S n (Typing.recorded m y) P :=
  h.bind fun _ he => note.bind fun _ _ => pure he

end Still

theorem computes_checkType (env : Env) (here : Site) (t : Ty) :
    Computes (env.checkType here t) fun _ => True := by
  unfold Env.checkType
  split
  · exact .throw trivial
  · exact .pure trivial

theorem still_checkScalar : Still ω S n (lift (env.checkScalar here s)) fun _ =>
    s.isPlain → (Ty.scalar s).isPlain :=
  .lift ⟨fun _ h hplain => isPlain_of_checkScalar hplain h,
    (computes_checkType env here (.scalar s)).allowed⟩

theorem isVoid_of_assignable {dst : Ty} {src : ExprTy} (h : env.assignable dst src) :
    src.isVoid = false := by
  unfold Env.assignable at h
  split at h
  next => rfl
  next t =>
    split at h
    next => cases h
    next hv =>
      simp only [Bool.or_eq_true, not_or, Bool.not_eq_true] at hv
      exact hv.1

/-- A value that can be stored somewhere is there. -/
theorem still_checkAssign {what : String} {dst : Ty} :
    Still ω S n (lift (env.checkAssign here what dst t)) fun _ => t.isVoid = false := by
  unfold Env.checkAssign
  split
  next hfits => exact .lift (.pure (isVoid_of_assignable hfits))
  next => exact .lift (.throw trivial)

/-! ## Names -/

theorem still_lookup (hS : Known ω V S) : Still ω S n (lookup here name) fun v =>
    KnownVar ω V v ∧ (∀ c, Fits ω S n c → v.Sound c) ∧ find? name S = some v := by
  refine Triple.get_bind fun r hr => ?_
  split
  next v hv =>
    rw [hr.scopes] at hv
    obtain ⟨scope, hscope, hmem⟩ := mem_of_find? hv
    exact Still.pure ⟨hS scope hscope v hmem,
      fun c hc => hc.vars c (.refl n c) scope hscope v hmem, hv⟩
  next => exact Still.fail

theorem integral_default : (default : Scalar).name.isFloatFree := by
  decide

/-- The last step of a path leads to an integral type. -/
theorem integral_lastStep {path : List Step} (h : ∀ f ∈ path, f.type.name.isFloatFree) :
    ((path.getLast?.map Step.type).getD default).name.isFloatFree := by
  cases hlast : path.getLast? with
  | none => exact integral_default
  | some f => exact h f (mem_of_getLast? hlast)

theorem integral_fieldType (henv : env.Integral found) {t : Ty} {c : ClassAt} {f : FieldDef}
    (hc : env.classOf? t = some c) (hf : f ∈ c.cls.fields) : (fieldType env c f).name.isFloatFree := by
  obtain ⟨s, hs, hc⟩ := Option.bind_eq_some_iff.mp hc
  split at hc
  next => cases hc
  next =>
    obtain ⟨howner, w, hcls⟩ := henv.own_of_class? hc
    unfold fieldType Env.scalarFrom
    rw [howner]
    exact henv.fields w c.cls hcls f hf

theorem still_steps : ∀ (t : ExprTy) (ws : List String), Still ω S n (steps here v t ws) fun path =>
    ω.integral → ∀ f ∈ path, f.type.name.isFloatFree
  | _, [] => by
    exact .pure fun _ _ hf => absurd hf not_mem_nil
  | t, w :: ws => by
    refine Still.read.bind fun env henv => ?_
    split
    next => exact .fail
    next c hc =>
      split
      next => exact .fail
      next f hf =>
        refine (still_steps _ ws).bind fun path hpath => .pure fun hω => ?_
        exact forall_mem_cons.mpr
          ⟨integral_fieldType (henv.integral hω) hc (mem_of_find?_eq_some hf), hpath hω⟩

theorem still_fieldPath (hS : Known ω V S) : Still ω S n (fieldPath here m q) fun r =>
    KnownVar ω V r.1 ∧ (ω.integral → ∀ f ∈ r.2, f.type.name.isFloatFree) := by
  refine (still_lookup hS).bind fun v hv => Still.note.bind fun _ _ => .check fun _ => ?_
  exact (still_steps _ _).bind fun path hpath => .pure ⟨hv.1, hpath⟩

theorem still_accessor (hS : Known ω V S) (hq : ω.plain → q.isPath = false) :
    Still ω S n (accessor m q) (Typed ω V S n (.accessor m q)) := by
  unfold accessor
  split
  next hpath =>
    have hp : ¬ ω.plain := fun hω => by simp [hq hω] at hpath
    refine (still_fieldPath hS).bind fun ⟨v, path⟩ hr => .pure (.other hp ?_ fun hω => ?_)
    · exact fun _ => hr.1.number
    · exact Ty.integral_scalar.mpr (integral_lastStep (hr.2 hω))
  next =>
    refine (still_lookup hS).bind fun v hv => Still.note.bind fun _ _ =>
      .pure ⟨?_, hv.1.type, fun _ c hc => ?_, fun _ => .accessor hv.2.2⟩
    · exact fun _ => hv.1.number
    · exact hv.2.1 c hc

theorem still_refAccess (hS : Known ω V S) (hp : ¬ ω.plain) :
    Still ω S n (refAccess m name) (Typed ω V S n source) := by
  refine (still_lookup hS).bind fun v hv => .check fun _ => Still.read.bind fun env _ =>
    .check fun _ => ?_
  split
  next => exact .fail
  next s hs =>
    refine Still.note.bind fun _ _ => .pure (.other hp ?_ fun hω => ?_)
    · exact fun _ => hv.1.number
    · have hname := (hv.1.type hω).scalar hs
      exact Ty.integral_scalar.mpr hname

theorem still_derefAccess (hS : Known ω V S) (hp : ¬ ω.plain) :
    Still ω S n (derefAccess m name) (Typed ω V S n source) := by
  refine (still_lookup hS).bind fun v hv => ?_
  split
  next => exact .fail
  next s hs =>
    refine .check fun _ => Still.note.bind fun _ _ => .pure (.other hp ?_ fun hω => ?_)
    · exact fun _ => hv.1.number
    · have hname := (hv.1.type hω).scalar hs
      refine Ty.integral_scalar.mpr ?_
      unfold Scalar.removeReference?
      split
      next => exact hname
      next => exact integral_default

/-! ## Constants and sizes -/

theorem fit_int {k : Int} (hp : p.isFloat = false) : (Core.Expr.int p k).Fit ω.demands V ∧
    (ω.integral → (Core.Expr.int p k).type.type.Integral) :=
  ⟨trivial, fun _ => Ty.integral_ofPrimitive hp⟩

theorem fit_readRadix {base : Nat} (h : Literal.readRadix base text = (t, some x)) :
    x.Fit ω.demands V ∧ (ω.integral → x.type.type.Integral) := by
  unfold Literal.readRadix at h
  split at h
  next => cases h
  next =>
    split at h
    next =>
      cases h
      exact fit_int rfl
    next =>
      split at h
      next =>
        cases h
        exact fit_int rfl
      next => cases h

theorem fit_readFloating (hp : p.isFloat) (h : Literal.readFloating p text = some x) :
    x.Fit ω.demands V := by
  unfold Literal.readFloating at h
  dsimp only at h
  split at h
  · cases h
    exact fun _ => hp
  · cases h

theorem isFloat_of_integerType? (h : Literal.integerType? kind = some p) : p.isFloat = false := by
  cases kind <;> cases h <;> rfl

/-- A literal has no variables. Its type is integral if it is no floating-point number. -/
theorem fit_read? (hkind : ω.integral → kind.isFloatFree)
    (h : Literal.read? kind text = some (t, some x)) :
    x.Fit ω.demands V ∧ (ω.integral → x.type.type.Integral) := by
  unfold Literal.read? at h
  split at h
  next =>
    cases h
    exact ⟨trivial, fun _ => Ty.integral_ofPrimitive rfl⟩
  next =>
    split at h
    next =>
      split at h
      next =>
        cases h
        exact fit_int rfl
      next => cases h
    next => cases h
  next =>
    cases h
    exact fit_int rfl
  next =>
    cases h
    refine ⟨trivial, fun _ => ?_⟩
    exact Ty.integral_scalar.mpr (Ty.integral_scalar.mp (Ty.integral_ofPrimitive (p := .void) rfl))
  next =>
    refine ⟨fit_readFloating rfl (Prod.mk.inj (Option.some.inj h)).2, fun hω => ?_⟩
    exact absurd (hkind hω) Bool.false_ne_true
  next =>
    refine ⟨fit_readFloating rfl (Prod.mk.inj (Option.some.inj h)).2, fun hω => ?_⟩
    exact absurd (hkind hω) Bool.false_ne_true
  next => exact fit_readRadix (Option.some.inj h)
  next => exact fit_readRadix (Option.some.inj h)
  next =>
    obtain ⟨p, hp, heq⟩ := Option.map_eq_some_iff.mp h
    obtain ⟨k, -, rfl⟩ := Option.map_eq_some_iff.mp (Prod.mk.inj heq).2
    exact fit_int (isFloat_of_integerType? hp)

theorem still_literal (hkind : ω.Asks kind.isFloatFree kind.isPlain) :
    Still ω S n (literal m kind text) (Typed ω V S n (.literal m kind text)) := by
  unfold literal
  split
  next => exact .fail
  next => exact .fail
  next h =>
    obtain ⟨hfit, htype⟩ := fit_read? hkind.first h
    exact .pure ⟨hfit, htype, fun hω _ _ => sound_read? (hkind.second hω) h, fun _ => .literal h⟩

theorem still_checkSized : Still ω S n (checkSized here t) fun _ => True := by
  unfold checkSized
  refine .check fun _ => ?_
  split
  · exact .fail
  · exact .pure trivial

theorem typed_sizeof (hp : ¬ ω.plain) : Typed ω V S n source (.sizeof t) :=
  .other hp trivial fun _ => Ty.integral_ofPrimitive rfl

theorem still_malloc (hs : ω.Asks s.name.isFloatFree False) :
    Still ω S n (malloc m s) (Typed ω V S n source) := by
  refine Still.read.bind fun env _ => still_checkScalar.bind fun _ _ => ?_
  refine .check fun _ => .check fun _ => .pure (.other hs.second trivial ?_)
  exact fun hω => Ty.integral_scalar.mpr (hs.first hω)

/-! ## Operators -/

section

variable (hx : Typed ω V S n source x)

include hx

theorem still_castTo (hs : ω.Asks s.name.isFloatFree (Ty.scalar s).isPlain) :
    Still ω S n (castTo m source s x) (Typed ω V S n (.cast m s source)) := by
  refine Still.read.bind fun env _ => still_checkScalar.bind fun _ _ => ?_
  split
  next p q hp hq =>
    refine .check fun _ => .check fun hconv => ?_
    have hvoid : p ≠ .void := by
      rintro rfl
      exact hconv rfl
    refine .pure ⟨hx.fit, fun hω => ?_, fun hω c hc => ?_, fun hω => .cast hq (hx.resolves hω)⟩
    · exact Ty.integral_ofPrimitive ((Ty.integral_scalar.mpr (hs.first hω)).isFloat_eq hq)
    · have hsound := hx.sound hω c hc
      refine ⟨primitive?_isPlain hsound hp hvoid, ?_, hp, hsound⟩
      rw [← hs.second hω]
      exact (Ty.isPlain_of_primitive? (t := .scalar s) hq).symm
  next => exact .fail

theorem still_unary {op : UnaryOp} :
    Still ω S n (unary m op source x) (Typed ω V S n (.unary m op source)) := by
  have hfloat : ∀ {p}, ω.integral → x.type.primitive? = some p → p.isFloat = false :=
    fun hω hp => (hx.type hω).isFloat_eq hp
  unfold unary
  split
  next =>
    split
    next p hp =>
      split
      next hnum =>
        obtain ⟨hvoid, hbool⟩ := ne_of_isNumeric hnum
        refine .pure ⟨?_, fun hω => Ty.integral_ofPrimitive (hfloat hω hp), fun hω c hc => ?_,
          fun hω => .neg (hx.resolves hω)⟩
        · exact ⟨fun hω => hfloat hω hp, hx.fit⟩
        · have hsound := hx.sound hω c hc
          exact ⟨primitive?_isPlain hsound hp hvoid, hbool, hp, hsound⟩
      next => exact .fail
    next => exact .fail
  next =>
    split
    next p hp =>
      split
      next hbool =>
        obtain rfl : p = .bool := by simpa [Primitive.isBoolean] using hbool
        refine .pure ⟨hx.fit, fun hω => Ty.integral_ofPrimitive rfl, fun hω c hc => ?_,
          fun hω => .not (hx.resolves hω)⟩
        exact ⟨hp, hx.sound hω c hc⟩
      next => exact .fail
    next => exact .fail
  next =>
    split
    next v =>
      refine .check fun _ => ?_
      split
      next p hp =>
        split
        next hint =>
          refine .pure ⟨hx.fit, fun hω => Ty.integral_ofPrimitive (hfloat hω hp), fun hω c hc => ?_,
            fun hω => .step (hx.resolves hω)⟩
          have hsound := hx.sound hω c hc
          obtain ⟨hvoid, hbool⟩ := ne_of_isNumeric (p := p) (by simp [Primitive.isNumeric, hint])
          have hplain := primitive?_isPlain hsound hp hvoid
          exact ⟨hsound, Option.some.inj (hp.symm.trans hsound.2), hplain, hbool⟩
        next => exact .fail
      next => exact .fail
    next => exact .fail

variable (hy : Typed ω V S n source' y)

include hy

theorem isFloat_promote {q : Primitive} (hω : ω.integral)
    (h : numeric? x.type y.type = some (p, q)) : (p.promote q).isFloat = false := by
  obtain ⟨hp, hq, -, -⟩ := numeric?_eq_some h
  unfold Primitive.promote
  split
  · exact (hy.type hω).isFloat_eq hq
  · exact (hx.type hω).isFloat_eq hp

theorem still_binary {op : BinaryOp} (hop : ω.plain → op.isPlain) :
    Still ω S n (binary m op x y) (Typed ω V S n (.binary m op source source')) := by
  have hpair : ∀ {z : Core.Expr}, z.binary? = some (op, x, y) →
      (z.Fit ω.demands V ↔ x.Fit ω.demands V ∧ y.Fit ω.demands V) →
      (ω.integral → z.type.type.Integral) → (ω.plain → ∀ c, x.Sound c → y.Sound c → z.Sound c) →
      Still ω S n (pure z) (Typed ω V S n (.binary m op source source')) :=
    fun hz hfit htype hsound => .pure ⟨hfit.mpr ⟨hx.fit, hy.fit⟩, htype,
      fun hω c hc => hsound hω c (hx.sound hω c hc) (hy.sound hω c hc),
      fun hω => .binary hz (hx.resolves hω) (hy.resolves hω)⟩
  have hbool : ω.integral → (Ty.ofPrimitive .bool).Integral := fun _ => Ty.integral_ofPrimitive rfl
  have harith : ∀ p q, (ω.plain → Core.isArithmetic op) →
      numeric? x.type y.type = some (p, q) →
      Still ω S n (pure (.arith op p q x y)) (Typed ω V S n (.binary m op source source')) := by
    intro p q harith hpq
    refine hpair rfl Iff.rfl (fun hω => ?_) fun hω c hsx hsy => ?_
    · exact Ty.integral_ofPrimitive (isFloat_promote hx hy hω hpq)
    · obtain ⟨hp, hq, hpb, hqb, htx, hty⟩ := sound_numbers hsx hsy hpq
      exact ⟨harith hω, hp, hq, hpb, hqb, htx, hty, hsx, hsy⟩
  unfold binary
  split
  iterate 2
    next =>
      split
      next h =>
        simp only [Bool.and_eq_true] at h
        exact hpair rfl Iff.rfl hbool fun _ c hsx hsy =>
          ⟨eq_of_beq h.1, eq_of_beq h.2, hsx, hsy⟩
      next => exact .fail
  iterate 6
    next =>
      split
      next p q hpq =>
        refine hpair rfl Iff.rfl hbool fun _ c hsx hsy => ?_
        obtain ⟨hp, hq, -, -, htx, hty⟩ := sound_numbers hsx hsy hpq
        exact ⟨hp, hq, htx, hty, hsx, hsy⟩
      next =>
        refine Still.read.bind fun env _ => ?_
        split
        next h =>
          simp only [Bool.and_eq_true] at h
          refine hpair rfl Iff.rfl hbool fun _ c hsx hsy => ?_
          obtain ⟨hbx, hby⟩ := bool_of_sameComparable hsx.type_isResult hsy.type_isResult h.2
          exact ⟨hbx, hby, hsx, hsy⟩
        next => exact .fail
  next =>
    split
    next p q hpq => exact .check fun _ => harith p q (fun hω => absurd (hop hω) (by decide)) hpq
    next => exact .fail
  iterate 5
    next =>
      split
      next p q hpq => exact harith p q (fun _ => rfl) hpq
      next => exact .fail
  all_goals exact .fail

/-- Plain values to select from have one type, or are promoted to a common one. -/
theorem still_selection {b : Core.Expr} {cond : Expr} (hb : Typed ω V S n cond b)
    (hbool : (b.type.primitive? == some .bool) = true) :
    Still ω S n (selection m b x y) (Typed ω V S n (.selection m cond source source')) := by
  have hpure : ∀ t : ExprTy, (ω.integral → t.type.Integral) →
      (∀ p q, x.type.primitive? = some p → y.type.primitive? = some q →
        t.primitive? = some (p.promote q)) →
      (ω.plain → ∀ c, x.Sound c → y.Sound c →
        t.type.isPlain ∧ x.type.type.isPlain ∧ y.type.type.isPlain) →
      Still ω S n (pure (.selection t b x y))
        (Typed ω V S n (.selection m cond source source')) := by
    refine fun t ht hcommon hplain => .pure ⟨⟨hb.fit, hx.fit, hy.fit⟩, ht, fun hω c hc => ?_,
      fun hω => .selection hcommon (hb.resolves hω) (hx.resolves hω) (hy.resolves hω)⟩
    have hsx := hx.sound hω c hc
    have hsy := hy.sound hω c hc
    obtain ⟨ht, hpx, hpy⟩ := hplain hω c hsx hsy
    exact ⟨ht, eq_of_beq hbool, hpx, hpy, hb.sound hω c hc, hsx, hsy⟩
  refine Still.read.bind fun env _ => ?_
  split
  next h =>
    simp only [Bool.and_eq_true] at h
    refine hpure _ hy.type (fun p _ hp _ => ?_) fun _ c _ hsy => ?_
    · simp [Core.ExprTy.isNull_of_primitive? hp] at h
    · simp [hsy.type_isResult.isAddress_eq] at h
  next =>
    split
    next h =>
      simp only [Bool.and_eq_true] at h
      refine hpure _ hx.type (fun _ q _ hq => ?_) fun _ c hsx _ => ?_
      · simp [Core.ExprTy.isNull_of_primitive? hq] at h
      · simp [hsx.type_isResult.isAddress_eq] at h
    next =>
      split
      next h =>
        simp only [Bool.and_eq_true, Bool.not_eq_true'] at h
        refine hpure _ hx.type (fun p q hp hq => ?_) fun _ c hsx hsy => ?_
        · obtain rfl := Ty.primitive?_eq_of_identical hp hq h.1.1
          rw [hp, Primitive.promote_self]
        · have hplain := hsx.type_isResult.isPlain h.2
          obtain ⟨p, hp, hpp⟩ := Ty.exists_of_isPlain hplain
          obtain ⟨q, hq, -⟩ := hsy.type_isResult
          obtain rfl := Ty.primitive?_eq_of_identical hp hq h.1.1
          exact ⟨hplain, hplain, (Ty.isPlain_of_primitive? hq).trans hpp⟩
      next =>
        split
        next p q hpq =>
          refine hpure _ (fun hω => ?_) (fun p' q' hp hq => ?_) fun _ c hsx hsy => ?_
          · exact Ty.integral_ofPrimitive (isFloat_promote hx hy hω hpq)
          · obtain ⟨hp', hq', -, -⟩ := numeric?_eq_some hpq
            cases hp.symm.trans hp'
            cases hq.symm.trans hq'
            exact Core.primitive?_ofPrimitive _
          · obtain ⟨hp, hq, -, -, htx, hty⟩ := sound_numbers hsx hsy hpq
            exact ⟨(Ty.isPlain_of_primitive? (Core.primitive?_ofPrimitive _)).trans
              (Primitive.isPlain_promote hp hq), (Ty.isPlain_of_primitive? htx).trans hp,
              (Ty.isPlain_of_primitive? hty).trans hq⟩
        next => exact .fail

end

/-! ## Arrays -/

theorem still_checkInteger : Still ω S n (checkInteger t (fail here cause)) fun _ => True := by
  unfold checkInteger
  split
  · exact .pure trivial
  · exact .fail

theorem name_element (s : Scalar) : s.element.name = s.name := by
  unfold Scalar.element Scalar.element?
  split <;> rfl

theorem still_element {index : Expr} (hx : Typed ω V S n source x) :
    Still ω S n (element here source index x y) fun r => ω.integral → r.2.name.isFloatFree := by
  unfold element
  split
  next => exact .fail
  next s hs =>
    refine .check fun _ => still_checkInteger.bind fun _ _ => ?_
    have hname : ω.integral → s.element.name.isFloatFree := fun hω =>
      name_element s ▸ (hx.type hω).scalar hs
    split
    · exact .check fun _ => .pure hname
    · exact .pure hname

theorem still_firstElement (hx : Typed ω V S n source x) :
    Still ω S n (firstElement source x) fun s => ω.integral → s.name.isFloatFree := by
  unfold firstElement
  split
  next => exact .fail
  next s hs =>
    split
    · exact .fail
    · exact .pure fun hω => (hx.type hω).scalar hs

theorem still_checkElement {first : ExprTy} :
    Still ω S n (checkElement first source x) fun _ => True := by
  unfold checkElement
  split
  · exact .pure trivial
  · exact .fail

theorem still_sizeDimension : ∀ x : Expr, Still ω S n (sizeDimension source x) fun _ => True
  | .group _ x => by
    exact still_sizeDimension x
  | .literal m kind text => by
    unfold sizeDimension
    split
    · exact .check fun _ => .pure trivial
    · exact .pure trivial
  | .accessor .. | .call .. | .new .. | .malloc .. | .sizeofType .. | .sizeofValue .. | .tuple ..
  | .cast .. | .unary .. | .binary .. | .refAccess .. | .derefAccess .. | .index ..
  | .arrayLiteral .. | .arrayAlloc .. | .selection .. => by
    exact .pure trivial

/-! ## Objects and calls -/

theorem still_checkNew : Still ω S n (checkNew m s) fun _ => True := by
  refine Still.read.bind fun env _ => still_checkScalar.bind fun _ _ => ?_
  split
  · exact .fail
  · exact .pure trivial

theorem still_checkFields {c : ClassAt} : ∀ (as : List (Expr × Core.Expr)) (fs : List FieldDef),
    Still ω S n (checkFields env c as fs) fun _ => True
  | [], _ | _ :: _, [] => by
    exact .pure trivial
  | (source, x) :: as, f :: fs => by
    unfold checkFields
    exact .check fun _ => still_checkAssign.bind fun _ _ => still_checkFields as fs

theorem still_checkPrintable : ∀ as : List (Expr × Core.Expr),
    Still ω S n (checkPrintable as) fun _ => True
  | [] => by
    exact .pure trivial
  | (source, x) :: as => by
    unfold checkPrintable
    exact .check fun _ => still_checkPrintable as

theorem still_checkDepths : ∀ (i : Nat) (ps : List Param) (as : List (Expr × Core.Expr)),
    Still ω S n (checkDepths q i ps as) fun _ => True
  | _, [], [] | _, _ :: _, [] | _, [], _ :: _ => by
    exact .pure trivial
  | i, p :: ps, (source, x) :: as => by
    unfold checkDepths
    exact .check fun _ => still_checkDepths (i + 1) ps as

/-- Without other packages, a method is found by its name among those of the unit. -/
theorem lookupMethod_found (himported : env.imported = []) (hused : env.used = []) {args : List Ty}
    {r : MethodLookup} {f : MethodDef}
    (h : ((env.lookupMethod q args).bind fun r => r.found.map fun f => (r, f)) = some (r, f)) :
    r.owner = .own ∧ f ∈ env.own.overloads q.render ∧ Ty.identicalAll f.method.paramTypes args := by
  obtain ⟨r', hr', hfound⟩ := Option.bind_eq_some_iff.mp h
  obtain ⟨f', hf', heq⟩ := Option.map_eq_some_iff.mp hfound
  cases heq
  have hresolved : ∀ key, env.own.resolveMethod key args = some f →
      f ∈ env.own.overloads key ∧ Ty.identicalAll f.method.paramTypes args :=
    fun key hf => ⟨mem_of_find?_eq_some hf, by simpa using List.find?_some hf⟩
  have hnone : ∀ p, env.imported? p = none := by simp [Env.imported?, himported]
  unfold Env.lookupMethod at hr'
  split at hr'
  next w hw =>
    cases hr'
    obtain ⟨howner, hf⟩ := lookupPlain_found hused hf'
    rw [QualName.render, hw]
    exact ⟨howner, hresolved w hf⟩
  next p w _ =>
    rw [hnone] at hr'
    cases hr'
    exact ⟨rfl, hresolved _ hf'⟩
  next =>
    rw [hnone] at hr'
    cases hr'
  next => cases hr'

theorem fitAll_of_typed (hargs : Forall₂ (Typed ω V S n) sources args) :
    Core.Expr.FitAll ω.demands V args :=
  Core.Expr.fitAll_iff.mpr (Typed.all Typed.fit hargs)

section

variable (hargs : Forall₂ (Typed ω V S n) sources args)

include hargs

theorem still_newOf (hs : ω.Asks s.name.isFloatFree False) :
    Still ω S n (newOf m s sources args) (Typed ω V S n source) := by
  have htype : ω.integral → (Ty.scalar (s.withRef .none)).Integral := fun hω =>
    Ty.integral_scalar.mpr (hs.first hω)
  refine Still.read.bind fun env _ => ?_
  split
  next =>
    split
    next =>
      exact .pure (.other hs.second trivial htype)
    next source _ x =>
      obtain ⟨hx, -⟩ := forall₂_cons.mp hargs
      exact still_checkAssign.bind fun _ _ => .pure (.other hs.second hx.fit htype)
    next => exact .fail
  next =>
    split
    next => exact Triple.throw fun _ _ => ⟨rfl, fun _ => rfl⟩
    next c hc =>
      exact .check fun _ => (still_checkFields _ _).bind fun _ _ =>
        .pure (.other hs.second (fitAll_of_typed hargs) htype)

theorem still_callOf {typeArgs : Option (List TypeArg)} (hq : ω.plain → q.render ≠ "println") :
    Still ω S n (callOf m q typeArgs sources args)
      (Typed ω V S n (.call m q typeArgs sources)) := by
  refine Still.read.bind fun env henv => .check fun _ => ?_
  dsimp only
  split
  next r f hlookup =>
    have hmethod : ω.integral → r.owner = .own ∧ ω.found f ∧ f.method.result.unnamed.Integral := by
      intro hω
      have henv := henv.integral hω
      obtain ⟨howner, hf, -⟩ := lookupMethod_found henv.imported henv.used hlookup
      exact ⟨howner, henv.methods _ f hf⟩
    refine (still_checkDepths _ _ _).bind fun _ _ => Still.note.bind fun _ _ =>
      .pure ⟨⟨fun hω => (hmethod hω).2.1, fitAll_of_typed hargs⟩, fun hω => ?_, fun hω c hc => ?_,
        fun hω => ?_⟩
    · obtain ⟨howner, -, hresult⟩ := hmethod hω
      rw [howner]
      exact hresult
    · have henv := henv.plain hω
      obtain ⟨howner, hf, hsame⟩ := lookupMethod_found henv.imported henv.used hlookup
      obtain ⟨-, hknown, hplain⟩ := henv.methods _ f hf
      have hown : env.typeFrom .own = id := rfl
      simp only [Core.Expr.Sound, Core.Callee.Sound, howner, hown, map_id, id, hc.known]
      exact ⟨⟨hknown, trivial, trivial⟩, trivial, Method.isResult_result hplain,
        soundArgs_of_identicalAll (fun ty => Method.isPlain_of_mem hplain)
          (Typed.all (fun hx => hx.sound hω c hc) hargs) hsame⟩
    · have henv := henv.plain hω
      obtain ⟨-, hf, hsame⟩ := lookupMethod_found henv.imported henv.used hlookup
      exact .call (henv.methods _ f hf).1 hsame (hargs.imp fun _ _ hx => hx.resolves hω)
  next =>
    split
    next hprint =>
      have hp : ¬ ω.plain := fun hω => hq hω (by simpa using hprint)
      exact (still_checkPrintable _).bind fun _ _ =>
        .pure (.other hp (fitAll_of_typed hargs) fun _ => Ty.integral_ofPrimitive rfl)
    next => exact .fail

end

/-! ## Expressions -/

mutual

/-- What typing makes of an expression uses variables that are in scope, is fit for lowering, and is
sound. -/
theorem still_expr (hS : Known ω V S) : ∀ x : Expr,
    ω.Asks x.isFloatFree x.isPlain → Still ω S n (expr x) (Typed ω V S n x)
  | .literal m kind text, h => by
    exact .recorded (still_literal h)
  | .accessor m q, h => by
    exact .recorded (still_accessor hS (by simpa [Expr.isPlain] using h.second))
  | .call m name typeArgs args, h => by
    simp only [Expr.isPlain, Bool.and_eq_true, bne_iff_ne] at h
    refine .recorded ((still_exprs hS args (h.mono id And.right)).bind fun xs hxs => ?_)
    exact still_callOf hxs fun hω => (h.second hω).1.2
  | .new m s args, h => by
    refine .recorded (still_checkNew.bind fun _ _ => ?_)
    exact (still_exprs hS args h.onlyRight).bind fun xs hxs => still_newOf hxs h.onlyLeft
  | .malloc m s, h => by
    exact .recorded (still_malloc h.only)
  | .sizeofType m s, h => by
    refine .recorded (Still.read.bind fun env _ => still_checkScalar.bind fun _ _ => ?_)
    exact still_checkSized.bind fun _ _ => .pure (typed_sizeof h.never)
  | .sizeofValue m x, h => by
    refine .recorded ((still_expr hS x h.only).bind fun v _ => ?_)
    exact still_checkSized.bind fun _ _ => .pure (typed_sizeof h.never)
  | .tuple m xs, h => by
    refine .recorded ((still_members hS xs h.only).bind fun ys hys =>
      .pure (.other h.never (fitAll_of_typed hys) fun hω => Ty.integral_tuple.mpr ?_))
    rw [Core.Expr.types_eq]
    exact forall_mem_map.mpr (Typed.all (fun hy => hy.type hω) hys)
  | .group m x, h => by
    exact .recorded ((still_expr hS x h).mono fun _ hy =>
      { hy with resolves := fun hω => .group (hy.resolves hω) })
  | .cast m s x, h => by
    simp only [Expr.isFloatFree, Expr.isPlain, Bool.and_eq_true] at h
    exact .recorded ((still_expr hS x h.right).bind fun v hv => still_castTo hv h.left)
  | .unary m op x, h => by
    exact .recorded ((still_expr hS x h).bind fun v hv => still_unary hv)
  | .binary m op x y, h => by
    simp only [Expr.isFloatFree, Expr.isPlain, Bool.and_eq_true] at h
    refine .recorded ((still_expr hS x (h.left.mono id And.right)).bind fun v hv => ?_)
    refine (still_expr hS y h.right).bind fun w hw => ?_
    exact still_binary hv hw fun hω => (h.second hω).1.1
  | .refAccess m name, h => by
    exact .recorded (still_refAccess hS h.never)
  | .derefAccess m name, h => by
    exact .recorded (still_derefAccess hS h.never)
  | .index m x i, h => by
    refine .recorded ((still_expr hS x h.onlyLeft).bind fun v hv => ?_)
    refine (still_expr hS i h.onlyRight).bind fun w hw => ?_
    exact (still_element hv).bind fun ⟨checked, elem⟩ helem =>
      .pure (.other h.never ⟨hv.fit, hw.fit⟩ fun hω => Ty.integral_scalar.mpr (helem hω))
  | .arrayLiteral m [], _ => by
    exact .recorded .fail
  | .arrayLiteral m (x :: xs), h => by
    refine .recorded ((still_expr hS x h.onlyLeft).bind fun v hv => ?_)
    refine (still_firstElement hv).bind fun elem helem => ?_
    refine (still_elements hS xs h.onlyRight).bind fun vs hvs => ?_
    exact .pure (.other h.never (fitAll_of_typed (.cons hv hvs))
      fun hω => Ty.integral_scalar.mpr (helem hω))
  | .arrayAlloc m elem size, h => by
    refine .recorded (Still.read.bind fun env _ =>
      still_checkScalar.bind fun _ _ => .check fun _ => ?_)
    refine (still_expr hS size h.onlyRight).bind fun k hk => ?_
    refine still_checkInteger.bind fun _ _ => (still_sizeDimension size).bind fun dim _ => ?_
    exact .pure (.other h.never hk.fit fun hω =>
      Ty.integral_scalar.mpr ((h.onlyLeft (q := True)).first hω))
  | .selection m c x y, h => by
    simp only [Expr.isFloatFree, Expr.isPlain, Bool.and_eq_true] at h
    refine .recorded ((still_expr hS c h.left.left).bind fun b hb => .check fun hbool => ?_)
    refine (still_expr hS x h.left.right).bind fun v hv => ?_
    refine (still_expr hS y h.right).bind fun w hw => ?_
    exact still_selection hv hw hb (by simpa using hbool)

theorem still_exprs (hS : Known ω V S) : ∀ xs : List Expr,
    ω.Asks (Expr.allFloatFree xs) (Expr.allPlain xs) →
    Still ω S n (exprs xs) (Forall₂ (Typed ω V S n) xs)
  | [], _ => by
    exact .pure .nil
  | x :: xs, h => by
    simp only [Expr.allFloatFree, Expr.allPlain, Bool.and_eq_true] at h
    refine (still_expr hS x h.left).bind fun y hy => ?_
    refine (still_exprs hS xs h.right).bind fun ys hys => ?_
    exact .pure (.cons hy hys)

theorem still_members (hS : Known ω V S) : ∀ xs : List Expr, ω.Asks (Expr.allFloatFree xs) False →
    Still ω S n (members xs) (Forall₂ (Typed ω V S n) xs)
  | [], _ => by
    exact .pure .nil
  | x :: xs, h => by
    simp only [Expr.allFloatFree, Bool.and_eq_true] at h
    refine (still_expr hS x (h.mono And.left False.elim)).bind fun y hy => .check fun _ => ?_
    refine (still_members hS xs (h.mono And.right id)).bind fun ys hys => ?_
    exact .pure (.cons hy hys)

theorem still_elements (hS : Known ω V S) {first : ExprTy} : ∀ xs : List Expr,
    ω.Asks (Expr.allFloatFree xs) False →
    Still ω S n (elements first xs) (Forall₂ (Typed ω V S n) xs)
  | [], _ => by
    exact .pure .nil
  | x :: xs, h => by
    simp only [Expr.allFloatFree, Bool.and_eq_true] at h
    refine (still_expr hS x (h.mono And.left False.elim)).bind fun y hy => ?_
    refine still_checkElement.bind fun _ _ => ?_
    refine (still_elements hS xs (h.mono And.right id)).bind fun ys hys => ?_
    exact .pure (.cons hy hys)

end

theorem still_condition (hS : Known ω V S) {b : Expr}
    (h : ω.Asks b.isFloatFree b.isPlain) : Still ω S n (condition b) fun x =>
      Typed ω V S n b x ∧ (x.type.primitive? == some .bool) = true := by
  exact (still_expr hS b h).bind fun x hx => .check fun hbool => .pure ⟨hx, by simpa using hbool⟩

end Typing

end SsaCompiler
