import SsaCompiler.Proofs.Core.Sound
import SsaCompiler.Proofs.Runs

/-!
# Plain programs

The part of the language that computes with truth values and signed integers, as it is written:
literals, plain variables, the operators of arithmetic, comparison and logic, conversions, calls of
methods of the unit, and the statements that declare and assign plain variables and direct the flow.
What typing makes of the pieces of such a program is sound, given that their parts are.
-/

namespace SsaCompiler

open List
open Core (Setting ExprTy Var IsResult)

variable {text : String}

/-! ## Plain programs -/

/-- Whether literals of a kind are truth values or signed integers. -/
def Token.Kind.isPlain : Token.Kind → Bool
  | .boolean | .byte | .short | .integer | .long | .hexadecimal | .binary => true
  | _ => false

/-- Whether an operator is one of arithmetic, comparison or logic. -/
def BinaryOp.isPlain : BinaryOp → Bool
  | .pow | .slice | .lambda | .arrow | .assign => false
  | _ => true

namespace Expr

mutual

/-- Whether an expression computes with truth values and integers only. -/
def isPlain : Expr → Bool
  | .literal _ kind _ => kind.isPlain
  | .accessor _ name => !name.isPath
  | .call _ name _ args => !name.isPath && name.render != "println" && allPlain args
  | .group _ x => isPlain x
  | .cast _ s x => (Ty.scalar s).isPlain && isPlain x
  | .unary _ _ x => isPlain x
  | .binary _ op x y => op.isPlain && isPlain x && isPlain y
  | .selection _ c x y => isPlain c && isPlain x && isPlain y
  | _ => false

/-- Whether all expressions compute with truth values and integers only. -/
def allPlain : List Expr → Bool
  | [] => true
  | x :: xs => isPlain x && allPlain xs

end

end Expr

/-- Whether variables of a written type are plain. The type may be left to the initial value. -/
def Scalar.isPlain (s : Scalar) : Bool :=
  s.name.isLet || (Ty.scalar s).isPlain

mutual

/-- Whether a statement computes with truth values and integers only. -/
def Stmt.isPlain : Stmt → Bool
  | .expr _ x => x.isPlain
  | .declare _ s _ => s.isPlain
  | .define _ s _ x => s.isPlain && x.isPlain
  | .immutable _ _ x => x.isPlain
  | .mutable _ s _ x => s.all Scalar.isPlain && x.all Expr.isPlain
  | .assign _ _ x => x.isPlain
  | .branch _ c body rest => c.isPlain && Stmt.allPlain body && rest.isPlain
  | .loop _ c body => c.isPlain && Stmt.allPlain body
  | .ret _ x => x.all Expr.isPlain
  | _ => false

/-- Whether all statements compute with truth values and integers only. -/
def Stmt.allPlain : List Stmt → Bool
  | [] => true
  | s :: ss => s.isPlain && Stmt.allPlain ss

/-- Whether what follows a first branch computes with truth values and integers only. -/
def Otherwise.isPlain : Otherwise → Bool
  | .none => true
  | .elseIf _ c body rest => c.isPlain && Stmt.allPlain body && rest.isPlain
  | .final _ body => Stmt.allPlain body

end

namespace Method

/-- Whether a method takes plain values and gives one or none. -/
def hasPlainTypes (m : Method) : Bool :=
  m.paramTypes.all Ty.isPlain && (m.result.unnamed.isPlain || m.result.unnamed.isVoid)

/-- Whether a method computes with truth values and integers only. -/
def isPlain (m : Method) : Bool :=
  m.hasPlainTypes && !Typing.isExternal m && Stmt.allPlain m.body

theorem isPlain_of_mem {m : Method} (h : m.hasPlainTypes) (ht : t ∈ m.paramTypes) : t.isPlain := by
  simp only [hasPlainTypes, Bool.and_eq_true, all_eq_true] at h
  exact h.1 t ht

theorem isResult_result {m : Method} (h : m.hasPlainTypes) : IsResult m.result.unnamed := by
  simp only [hasPlainTypes, Bool.and_eq_true, Bool.or_eq_true] at h
  rcases h.2 with h | h
  · obtain ⟨p, hp, hplain⟩ := Ty.exists_of_isPlain h
    exact ⟨p, hp, .inl hplain⟩
  · exact ⟨.void, by simpa [Ty.isVoid] using h, .inr rfl⟩

end Method

/-! ## Types of plain values -/

namespace Core.IsResult

variable {t u : Ty} {p q : Primitive} {env : Env}

theorem isPlain (h : IsResult t) (hv : t.isVoid = false) : t.isPlain := by
  obtain ⟨p, hp, hplain | rfl⟩ := h
  · simp [Ty.isPlain, hp, hplain]
  · simp [Ty.isVoid, hp] at hv

theorem depth_eq (h : IsResult t) : t.depth = 0 := by
  obtain ⟨p, hp, -⟩ := h
  obtain ⟨s, hs, -, hdepth, -, -⟩ := Ty.scalar_of_primitive? hp
  cases t <;> simp_all [Ty.scalar?, Ty.depth]

theorem isAddress_eq (h : IsResult t) (env : Env) : env.isAddress t = false := by
  have hdepth := h.depth_eq
  obtain ⟨p, hp, hplain⟩ := h
  have hstring : p ≠ .string := by
    rintro rfl
    rcases hplain with h | h <;> exact absurd h (by decide)
  simp [Env.isAddress, hdepth, Ty.isArray_of_primitive? hp, Ty.isTuple_of_primitive? hp,
    Ty.classOf?_of_primitive? env hp, hp, hstring]

end Core.IsResult

namespace Ty

variable {t u : Ty} {p q : Primitive}

theorem isPlain_of_primitive? (h : t.primitive? = some p) : t.isPlain = p.isPlain := by
  simp [isPlain, h]

theorem segments_of_identicalScalars {s s' : Scalar} (h : identicalScalars s s') :
    s.name.segments = s'.name.segments := by
  obtain ⟨_, n, _ | as, ds⟩ := s <;> obtain ⟨_, n', _ | as', ds'⟩ := s' <;>
    simp_all [identicalScalars, Scalar.name]

/-- Identical types are the same primitive type, if both of them are primitive. -/
theorem primitive?_eq_of_identical (ht : t.primitive? = some p) (hu : u.primitive? = some q)
    (h : t.identical u) : p = q := by
  obtain ⟨s, hs, -, -, hname, hp⟩ := scalar_of_primitive? ht
  obtain ⟨s', hs', -, -, hname', hq⟩ := scalar_of_primitive? hu
  have hsame : identicalScalars s s' := by
    cases t <;> cases u <;> simp_all [scalar?, identical]
  have hsegments := segments_of_identicalScalars hsame
  have hprim : s.name.primitive = s'.name.primitive := by
    simp only [QualName.primitive, hname, hname', QualName.direct, hsegments]
  rw [hprim, hq] at hp
  exact (Option.some.inj hp).symm

end Ty

/-! ## Settings and environments -/

/-- Settings agree about the methods, and about the variables with numbers below `n`. -/
structure Core.Setting.Agrees (n : Nat) (c c' : Setting) : Prop where
  known : c'.known = c.known
  type : ∀ i < n, c'.type i = c.type i

theorem Core.Setting.Agrees.refl (n : Nat) (c : Setting) : c.Agrees n c :=
  ⟨rfl, fun _ _ => rfl⟩

theorem Core.Setting.Agrees.trans {n : Nat} {c c' c'' : Setting} (h : c.Agrees n c')
    (h' : c'.Agrees n c'') : c.Agrees n c'' :=
  ⟨h'.known.trans h.known, fun i hi => (h'.type i hi).trans (h.type i hi)⟩

/-- A unit of plain methods sees nothing but these methods. -/
structure Env.IsPlain (env : Env) (known : MethodDef → Prop) : Prop where
  imported : env.imported = []
  used : env.used = []
  methods : ∀ key, ∀ f ∈ env.own.overloads key,
    f.method.name = key ∧ known f ∧ f.method.hasPlainTypes

namespace Typing

variable {env : Env} {c : Setting} {v : Var} {here : Site} {name : String} {x y : Core.Expr}
  {p q : Primitive} {ty : Scalar}

theorem mem_of_find? : ∀ {scopes : List (List Var)}, find? name scopes = some v →
    ∃ scope ∈ scopes, v ∈ scope
  | [], h => by simp [find?] at h
  | scope :: outer, h => by
    unfold find? at h
    split at h
    next w hw =>
      cases h
      exact ⟨scope, mem_cons_self, mem_of_find?_eq_some hw⟩
    next =>
      obtain ⟨scope', hs, hv⟩ := mem_of_find? h
      exact ⟨scope', mem_cons_of_mem _ hs, hv⟩

/-! ## Literals -/

theorem fitsSigned_iff {bits : Nat} {n : Int} : Number.fitsSigned bits n ↔
    -(2 ^ (bits - 1)) ≤ n ∧ n < 2 ^ (bits - 1) := by
  rw [Number.fitsSigned, Bool.and_eq_true, decide_eq_true_eq, decide_eq_true_eq, Nat.one_shiftLeft]
  simp

/-- A number that fits a signed type is a value of the type. -/
theorem holds_of_fits {n : Nat} (hp : p.isPlain) (hb : p ≠ .bool)
    (h : Literal.fits p n) : p.Holds (Number.wrap64 n) := by
  have hfits : Number.fitsSigned p.bits n := by
    cases p <;> simp_all [Primitive.isPlain, Literal.fits, Primitive.isUnsigned]
  obtain ⟨-, hlt⟩ := fitsSigned_iff.mp hfits
  have hwide : (n : Int) < 2 ^ 63 := by
    cases p <;> simp_all [Primitive.isPlain, Primitive.bits] <;> omega
  rw [Number.wrap64_of_fits (by omega) (by simpa using hwide)]
  cases p <;> simp_all [Primitive.isPlain, Primitive.Holds, Primitive.bits]

theorem sound_readInteger (hp : p.isPlain) (hb : p ≠ .bool)
    (h : Literal.readInteger p text = some x) : x.Sound c := by
  obtain ⟨n, hn, rfl⟩ := Option.map_eq_some_iff.mp h
  obtain ⟨k, hk, hn⟩ := Option.bind_eq_some_iff.mp hn
  cases hn
  exact ⟨hp, holds_of_fits hp hb (Option.filter_eq_some_iff.mp hk).2⟩

theorem sound_readRadix {base : Nat} {ty : ExprTy}
    (h : Literal.readRadix base text = (ty, some x)) : x.Sound c := by
  unfold Literal.readRadix at h
  split at h
  next => cases h
  next n _ =>
    split at h
    next hn =>
      cases h
      refine ⟨rfl, ?_⟩
      simp [Primitive.Holds, Primitive.bits]
      omega
    next =>
      split at h
      next =>
        cases h
        refine ⟨rfl, ?_⟩
        have hlo := Int.le_bmod (x := (n : Int)) (m := 1 <<< 64) (by decide)
        have hhi := Int.bmod_lt (x := (n : Int)) (m := 1 <<< 64) (by decide)
        simp [Primitive.Holds, Primitive.bits, Number.wrap64] at hlo hhi ⊢
        omega
      next => cases h

theorem sound_read? {kind : Token.Kind} {t : ExprTy} (hk : kind.isPlain)
    (h : Literal.read? kind text = some (t, some x)) : x.Sound c := by
  cases kind <;> simp only [Token.Kind.isPlain, Bool.false_eq_true] at hk <;>
    simp only [Literal.read?, Literal.integerType?, Option.map_some, Option.some.injEq,
      Prod.mk.injEq] at h
  case boolean =>
    rw [← h.2]
    refine ⟨rfl, ?_⟩
    split
    · exact .inr rfl
    · exact .inl rfl
  case hexadecimal => exact sound_readRadix h
  case binary => exact sound_readRadix h
  all_goals exact sound_readInteger rfl (by simp) h.2

/-! ## Operators -/

theorem primitive?_isPlain (hx : x.Sound c) (hp : x.type.primitive? = some p) (hv : p ≠ .void) :
    p.isPlain := by
  obtain ⟨q, hq, hplain⟩ := hx.type_isResult
  obtain rfl : q = p := Option.some.inj (hq.symm.trans hp)
  exact hplain.resolve_right hv

theorem ne_of_isNumeric (hp : p.isNumeric) : p ≠ .void ∧ p ≠ .bool := by
  cases p <;> simp_all [Primitive.isNumeric, Primitive.isInteger, Primitive.isFloat]

theorem numeric?_eq_some {t u : ExprTy} (h : numeric? t u = some (p, q)) :
    t.primitive? = some p ∧ u.primitive? = some q ∧ p.isNumeric ∧ q.isNumeric := by
  unfold numeric? at h
  split at h
  next p' q' hp hq =>
    split at h
    next hn =>
      cases h
      simp only [Bool.and_eq_true] at hn
      exact ⟨hp, hq, hn.1, hn.2⟩
    next => cases h
  next => cases h

/-- Plain values are compared for being the same only if they are truth values. -/
theorem bool_of_sameComparable {t u : ExprTy} (ht : IsResult t.type) (hu : IsResult u.type)
    (h : sameComparable env t u) : t.primitive? = some .bool ∧ u.primitive? = some .bool := by
  simp only [sameComparable, ht.isAddress_eq env, hu.isAddress_eq env, Bool.and_false,
    Bool.false_and, Bool.or_false, Bool.and_eq_true, beq_iff_eq] at h
  exact h

theorem sound_numbers (hx : x.Sound c) (hy : y.Sound c) (h : numeric? x.type y.type = some (p, q)) :
    p.isPlain ∧ q.isPlain ∧ p ≠ .bool ∧ q ≠ .bool ∧
      x.type.primitive? = some p ∧ y.type.primitive? = some q := by
  obtain ⟨hp, hq, hnp, hnq⟩ := numeric?_eq_some h
  exact ⟨primitive?_isPlain hx hp (ne_of_isNumeric hnp).1,
    primitive?_isPlain hy hq (ne_of_isNumeric hnq).1, (ne_of_isNumeric hnp).2,
    (ne_of_isNumeric hnq).2, hp, hq⟩

/-! ## Calls -/

/-- All expressions are sound. -/
def SoundAll (c : Setting) (xs : List Core.Expr) : Prop :=
  ∀ x ∈ xs, x.Sound c

/-- Arguments that select a method of plain types are sound where its parameter types are
expected. -/
theorem soundArgs_of_identicalAll : ∀ {ts : List Ty} {xs : List Core.Expr},
    (∀ t ∈ ts, t.isPlain) → SoundAll c xs →
    Ty.identicalAll ts (xs.map fun x => x.type.type) → Core.SoundArgs c xs ts
  | [], [], _, _, _ => by simp only [Core.SoundArgs]
  | [], x :: xs, _, _, h => by simp [Ty.identicalAll] at h
  | t :: ts, [], _, _, h => by simp [Ty.identicalAll] at h
  | t :: ts, x :: xs, ht, hx, h => by
    simp only [map_cons, Ty.identicalAll, Bool.and_eq_true] at h
    have hsound := hx x mem_cons_self
    obtain ⟨p, hp, hpp⟩ := Ty.exists_of_isPlain (ht t mem_cons_self)
    obtain ⟨q, hq, -⟩ := hsound.type_isResult
    obtain rfl := Ty.primitive?_eq_of_identical hp hq h.1
    exact ⟨(Ty.isPlain_of_primitive? hq).trans hpp, ht t mem_cons_self, hsound,
      soundArgs_of_identicalAll (fun t h => ht t (mem_cons_of_mem _ h))
        (fun x h => hx x (mem_cons_of_mem _ h)) h.2⟩

theorem lookupPlain_found {key : String} {args : List Ty} {f : MethodDef} (hused : env.used = [])
    (h : (env.lookupPlain key args).found = some f) :
    (env.lookupPlain key args).owner = .own ∧ env.own.resolveMethod key args = some f := by
  unfold Env.lookupPlain at h ⊢
  rw [hused] at h ⊢
  cases hm : env.own.resolveMethod key args with
  | some g =>
    rw [hm] at h
    exact ⟨rfl, h⟩
  | none =>
    rw [hm] at h
    simp [Env.usedMethod?] at h

/-! ## Declarations -/

/-- The word for an inferred type is refused where a type has to be written. -/
theorem isPlain_of_checkScalar {r : Unit} (hty : ty.isPlain)
    (h : env.checkScalar here ty = .ok r) : (Ty.scalar ty).isPlain := by
  simp only [Scalar.isPlain, Bool.or_eq_true] at hty
  refine hty.resolve_left fun hlet => ?_
  have hfault : env.scalarFault? ty ≠ none := by
    simp only [Env.scalarFault?, hlet, if_true]
    split
    · simp
    · split <;> simp
  simp only [Env.checkScalar, Env.checkType, Env.typeFault?] at h
  split at h
  next => cases h
  next hnone => exact hfault hnone

theorem isArray_eq (h : (Ty.scalar ty).isPlain) : ty.isArray = false := by
  obtain ⟨p, hp, -⟩ := Ty.exists_of_isPlain h
  obtain ⟨_, hs, hdims, -⟩ := Ty.scalar_of_primitive? hp
  cases hs
  simp [Scalar.isArray, hdims]

/-- The value of a sound expression is not kept in an object that the expression makes. -/
theorem allocation_eq (hx : x.Sound c) : allocation env x = .slot := by
  cases x with
  | call f args =>
    obtain ⟨p, hp, -⟩ := hx.type_isResult
    have hp : f.result.primitive? = some p := hp
    have hdepth : f.result.depth = 0 := hx.type_isResult.depth_eq
    simp [allocation, Ty.classOf?_of_primitive? env hp, hdepth]
  | _ => first | rfl | simp [Core.Expr.Sound] at hx

end Typing

end SsaCompiler
