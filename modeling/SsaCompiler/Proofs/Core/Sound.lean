import SsaCompiler.Lowering.Layout
import SsaCompiler.Proofs.Core.Resolution
import SsaCompiler.Proofs.Core.Semantics

/-!
# Sound programs

What typing guarantees about a plain program: the types that operations are labelled with are the
types of their operands, constants are values of their types, every use of a variable agrees with
all others about its type, calls pass as many arguments as the method takes, and a return gives what
the method promises. A plain type is one of five primitive types, and its machine type is an integer
of as many bits.
-/

namespace SsaCompiler

/-! ## Plain types -/

theorem Ty.exists_of_isPlain {t : Ty} (h : t.isPlain) : ∃ p, t.primitive? = some p ∧ p.isPlain := by
  unfold Ty.isPlain at h
  cases hp : t.primitive? with
  | none => rw [hp] at h; exact absurd h (by simp)
  | some p => rw [hp] at h; exact ⟨p, rfl, h⟩

namespace Primitive

variable {p q : Primitive}

theorem machineType_of_isPlain (h : p.isPlain) : p.machineType = .int p.bits := by
  cases p <;> first | rfl | exact absurd h (by decide)

theorem bits_le (p : Primitive) : p.bits ≤ 64 := by
  cases p <;> decide

theorem isFloat_of_isPlain (h : p.isPlain) : p.isFloat = false := by
  cases p <;> first | rfl | exact absurd h (by decide)

theorem isPlain_promote (hp : p.isPlain) (hq : q.isPlain) : (p.promote q).isPlain := by
  unfold promote
  split
  · exact hq
  · exact hp

theorem promote_self (p : Primitive) : p.promote p = p :=
  ite_self p

theorem promote_ne_bool (hp : p ≠ .bool) (hq : q ≠ .bool) : p.promote q ≠ .bool := by
  unfold promote
  split
  · exact hq
  · exact hp

end Primitive

namespace Ty

variable {env : Env} {t : Ty} {p : Primitive}

/-- A primitive type is written as a type word, without dimensions and references. -/
theorem scalar_of_primitive? (h : t.primitive? = some p) :
    ∃ s : Scalar, t.scalar? = some s ∧ s.dims = [] ∧ s.depth = 0 ∧ s.name.isPrimitive ∧
      Primitive.ofName? s.name.primitive = some p := by
  obtain ⟨s, hs, hp⟩ := Option.bind_eq_some_iff.mp h
  unfold Scalar.primitive? at hp
  split at hp
  next => exact absurd hp (by simp)
  next hc =>
    simp only [Bool.or_eq_true, not_or, decide_eq_true_eq, Bool.not_eq_true'] at hc
    obtain ⟨⟨hdims, hdepth⟩, hname⟩ := hc
    refine ⟨s, hs, ?_, by omega, by simpa using hname, hp⟩
    unfold Scalar.isArray at hdims
    simpa using hdims

theorem scalar_machineType (env : Env) {s : Scalar} (hdims : s.dims = []) (hdepth : s.depth = 0)
    (hname : s.name.isPrimitive) (hp : Primitive.ofName? s.name.primitive = some p) :
    Layout.scalar env env.classStruct s = .ok p.machineType := by
  unfold Layout.scalar
  rw [hdims, hdepth]
  unfold Layout.named
  rw [hname, hp]
  rfl

theorem machineType_of_primitive? (env : Env) (h : t.primitive? = some p) :
    env.machineType t = .ok p.machineType := by
  obtain ⟨s, hs, hdims, hdepth, hname, hp⟩ := scalar_of_primitive? h
  have hscalar := scalar_machineType env hdims hdepth hname hp
  cases t with
  | scalar u =>
    cases hs
    exact hscalar
  | namedScalar u _ =>
    cases hs
    exact hscalar
  | _ => exact absurd hs (by simp [scalar?])

theorem isArray_of_primitive? (h : t.primitive? = some p) : t.isArray = false := by
  obtain ⟨s, hs, hdims, -, -, -⟩ := scalar_of_primitive? h
  unfold isArray
  rw [hs]
  simp [Scalar.isArray, hdims]

theorem isTuple_of_primitive? (h : t.primitive? = some p) : t.isTuple = false := by
  obtain ⟨s, hs, -, -, -, -⟩ := scalar_of_primitive? h
  cases t <;> simp_all [scalar?, isTuple, members?]

theorem classOf?_of_primitive? (env : Env) (h : t.primitive? = some p) : env.classOf? t = none := by
  obtain ⟨s, hs, -, -, hname, -⟩ := scalar_of_primitive? h
  unfold Env.classOf?
  rw [hs]
  simp [hname]

end Ty

namespace Core

theorem ExprTy.isNull_of_primitive? {t : ExprTy} {p : Primitive} (h : t.primitive? = some p) :
    t.isNull = false := by
  cases t with
  | null => exact absurd (show none = some p from h) (by simp)
  | val t => rfl

/-! ## Sound expressions -/

/-- What the statements of a program agree about. -/
structure Setting where
  /-- The type of a variable, by its number. -/
  type : Nat → Primitive
  /-- The methods that can be called. -/
  known : MethodDef → Prop

/-- A plain variable of the type that is known of it. -/
def Var.Sound (c : Setting) (v : Var) : Prop :=
  v.isPlain ∧ v.type.primitive? = some (c.type v.id)

/-- A method whose types are written as in its declaration. -/
def Callee.Sound (c : Setting) (f : Callee) : Prop :=
  c.known f.method ∧ f.params = f.method.method.paramTypes ∧
    f.result = f.method.method.result.unnamed

/-- A type of plain values, or void. -/
def IsResult (t : Ty) : Prop :=
  ∃ p, t.primitive? = some p ∧ (p.isPlain ∨ p = .void)

mutual

/-- The labels of an expression are right. -/
def Expr.Sound (c : Setting) : Expr → Prop
  | .int p n => p.isPlain ∧ p.Holds n
  | .var v => v.Sound c
  | .call f args => f.Sound c ∧ f.owner = .own ∧ IsResult f.result ∧ SoundArgs c args f.params
  | .cast p q x => p.isPlain ∧ q.isPlain ∧ x.type.primitive? = some p ∧ x.Sound c
  | .neg p x => p.isPlain ∧ p ≠ .bool ∧ x.type.primitive? = some p ∧ x.Sound c
  | .not x => x.type.primitive? = some .bool ∧ x.Sound c
  | .step v p _ _ => v.Sound c ∧ p = c.type v.id ∧ p.isPlain ∧ p ≠ .bool
  | .logical _ x y =>
    x.type.primitive? = some .bool ∧ y.type.primitive? = some .bool ∧ x.Sound c ∧ y.Sound c
  | .same _ x y =>
    x.type.primitive? = some .bool ∧ y.type.primitive? = some .bool ∧ x.Sound c ∧ y.Sound c
  | .compare _ p q x y =>
    p.isPlain ∧ q.isPlain ∧ x.type.primitive? = some p ∧
      y.type.primitive? = some q ∧ x.Sound c ∧ y.Sound c
  | .arith op p q x y =>
    isArithmetic op ∧ p.isPlain ∧ q.isPlain ∧ p ≠ .bool ∧ q ≠ .bool ∧
      x.type.primitive? = some p ∧ y.type.primitive? = some q ∧ x.Sound c ∧ y.Sound c
  | .selection t b x y =>
    t.type.isPlain ∧ b.type.primitive? = some .bool ∧ x.type.type.isPlain ∧
      y.type.type.isPlain ∧ b.Sound c ∧ x.Sound c ∧ y.Sound c
  | _ => False

/-- The labels of arguments are right, and there are as many as parameter types. -/
def SoundArgs (c : Setting) : List Expr → List Ty → Prop
  | [], [] => True
  | x :: xs, t :: ts =>
    x.type.type.isPlain ∧ t.isPlain ∧ x.Sound c ∧ SoundArgs c xs ts
  | _, _ => False

end

/-! ## Sound statements -/

mutual

/-- The labels of a statement of a method with a result type are right. -/
def Stmt.Sound (c : Setting) (result : Ty) : Stmt → Prop
  | .expr x => x.Sound c
  | .declare v => v.Sound c
  | .bind v x => v.Sound c ∧ x.type.type.isPlain ∧ x.Sound c
  | .assign v x => v.Sound c ∧ x.type.type.isPlain ∧ x.Sound c
  | .branch b body rest =>
    b.type.primitive? = some .bool ∧ b.Sound c ∧ SoundStmts c result body ∧ rest.Sound c result
  | .loop b body => b.type.primitive? = some .bool ∧ b.Sound c ∧ SoundStmts c result body
  | .retVoid => result.primitive? = some .void
  | .ret x t => t = result ∧ t.isPlain ∧ x.type.type.isPlain ∧ x.Sound c
  | _ => False

/-- The labels of statements are right. -/
def SoundStmts (c : Setting) (result : Ty) : List Stmt → Prop
  | [] => True
  | s :: ss => s.Sound c result ∧ SoundStmts c result ss

/-- The labels of what follows a first branch are right. -/
def Otherwise.Sound (c : Setting) (result : Ty) : Otherwise → Prop
  | .none => True
  | .elseIf b body rest =>
    b.type.primitive? = some .bool ∧ b.Sound c ∧ SoundStmts c result body ∧ rest.Sound c result
  | .final body => SoundStmts c result body

end

/-- A method is resolved as it is written, and its statements are sound. -/
structure Method.Sound (c : Setting) (m : Method) : Prop where
  result : IsResult m.origin.method.result.unnamed
  vars : ∀ v ∈ m.vars, v.Sound c
  body : SoundStmts c m.origin.method.result.unnamed m.body
  resolves : m.origin.method.Resolves m

/-- A variable of a method has the type of the parameter that it stands for. -/
theorem Method.Sound.index {c : Setting} {m : Method} (h : m.Sound c) {v : Var} (hv : v ∈ m.vars) :
    ∃ t, m.origin.method.paramTypes[v.index.toNat]? = some t ∧
      t.primitive? = some (c.type v.id) := by
  obtain ⟨p, hp, -, htype⟩ := h.resolves.params v hv
  refine ⟨p.type, ?_, ?_⟩
  · rw [Method.paramTypes, List.getElem?_map, hp]
    rfl
  · have := (h.vars v hv).2
    rwa [htype] at this

/-! ## Types of sound expressions -/

theorem Var.Sound.isPlain_type {c : Setting} {v : Var} (h : v.Sound c) : (c.type v.id).isPlain := by
  have hp := h.1
  simp only [Var.isPlain, Bool.and_eq_true] at hp
  obtain ⟨p, hv, hp⟩ := Ty.exists_of_isPlain hp.1.1.1.1
  have : p = c.type v.id := Option.some.inj (hv.symm.trans h.2)
  exact this ▸ hp

theorem primitive?_ofPrimitive (p : Primitive) : (ExprTy.ofPrimitive p).primitive? = some p := by
  cases p <;> rfl

/-- A sound expression has a plain type, unless it is a call without a result. -/
theorem Expr.Sound.type_isResult {c : Setting} {x : Expr} (h : x.Sound c) :
    IsResult x.type.type := by
  have plain : ∀ {p : Primitive}, p.isPlain → IsResult (ExprTy.ofPrimitive p).type :=
    fun {p} hp => ⟨p, primitive?_ofPrimitive p, .inl hp⟩
  cases x with
  | int p n => exact plain h.1
  | var v => exact ⟨_, h.2, .inl h.isPlain_type⟩
  | call f args => exact h.2.2.1
  | cast p q x => exact plain h.2.1
  | neg p x => exact plain h.1
  | not x => exact plain rfl
  | step v p up after => exact plain h.2.2.1
  | logical op x y => exact plain rfl
  | same op x y => exact plain rfl
  | compare op p q x y => exact plain rfl
  | arith op p q x y => exact plain (Primitive.isPlain_promote h.2.1 h.2.2.1)
  | selection t b x y =>
    obtain ⟨p, hp, hplain⟩ := Ty.exists_of_isPlain h.1
    exact ⟨p, hp, .inl hplain⟩
  | _ => exact absurd h (by simp [Expr.Sound])

end Core

end SsaCompiler
