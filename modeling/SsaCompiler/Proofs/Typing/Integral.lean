import SsaCompiler.Proofs.Core.Sound

/-!
# Programs without floating-point numbers

The types of a program without floating-point numbers are integral: no name in them is that of a
floating-point type.
-/

namespace SsaCompiler

variable {ts : List Ty}

/-! ## Programs without floating-point numbers -/

/-- Whether literals of a kind are something else than floating-point numbers. -/
def Token.Kind.isFloatFree : Token.Kind → Bool
  | .float | .double => false
  | _ => true

/-- Whether a name is something else than that of a floating-point type. -/
def QualName.isFloatFree (q : QualName) : Bool :=
  (Primitive.ofName? q.primitive).all fun p => !p.isFloat

namespace Ty

mutual

/-- The names in a type. Those in function types do not count. -/
def names : Ty → List QualName
  | .scalar s | .namedScalar s _ => [s.name]
  | .tuple _ ts | .namedGroup _ ts => namesOfAll ts
  | .lambda .. | .namedLambda .. => []

/-- The names in some types. -/
def namesOfAll : List Ty → List QualName
  | [] => []
  | t :: ts => names t ++ namesOfAll ts

end

/-- Whether no floating-point type is named in a type. -/
def isFloatFree (t : Ty) : Bool :=
  t.names.all QualName.isFloatFree

end Ty

namespace Expr

mutual

/-- Whether no floating-point type or literal is written in an expression. -/
def isFloatFree : Expr → Bool
  | .literal _ kind _ => kind.isFloatFree
  | .accessor .. | .refAccess .. | .derefAccess .. => true
  | .call _ _ _ xs | .tuple _ xs | .arrayLiteral _ xs => allFloatFree xs
  | .new _ s xs => s.name.isFloatFree && allFloatFree xs
  | .malloc _ s | .sizeofType _ s => s.name.isFloatFree
  | .sizeofValue _ x | .group _ x | .unary _ _ x => isFloatFree x
  | .cast _ s x | .arrayAlloc _ s x => s.name.isFloatFree && isFloatFree x
  | .binary _ _ x y | .index _ x y => isFloatFree x && isFloatFree y
  | .selection _ c x y => isFloatFree c && isFloatFree x && isFloatFree y

/-- Whether no floating-point type or literal is written in some expressions. -/
def allFloatFree : List Expr → Bool
  | [] => true
  | x :: xs => isFloatFree x && allFloatFree xs

end

end Expr

mutual

/-- Whether no floating-point type or literal is written in a statement. -/
def Stmt.isFloatFree : Stmt → Bool
  | .expr _ x | .immutable _ _ x | .reference _ _ x | .destructure _ _ x | .assign _ _ x
  | .fieldAssign _ _ x => x.isFloatFree
  | .declare _ s _ => s.name.isFloatFree
  | .define _ s _ x => s.name.isFloatFree && x.isFloatFree
  | .mutable _ s _ x => s.all (fun s => s.name.isFloatFree) && x.all Expr.isFloatFree
  | .indexAssign _ _ x i y => x.isFloatFree && i.isFloatFree && y.isFloatFree
  | .branch _ c body rest => c.isFloatFree && Stmt.allFloatFree body && rest.isFloatFree
  | .loop _ c body => c.isFloatFree && Stmt.allFloatFree body
  | .ret _ x => x.all Expr.isFloatFree
  | .free .. => true

/-- Whether no floating-point type or literal is written in some statements. -/
def Stmt.allFloatFree : List Stmt → Bool
  | [] => true
  | s :: ss => s.isFloatFree && Stmt.allFloatFree ss

/-- Whether no floating-point type or literal is written in what follows a first branch. -/
def Otherwise.isFloatFree : Otherwise → Bool
  | .none => true
  | .elseIf _ c body rest => c.isFloatFree && Stmt.allFloatFree body && rest.isFloatFree
  | .final _ body => Stmt.allFloatFree body

end

/-! ## Integral types -/

namespace Ty

/-- No name in a type is that of a floating-point type. -/
def Integral (t : Ty) : Prop :=
  ∀ q ∈ t.names, q.isFloatFree

variable {t : Ty} {s : Scalar} {p : Primitive}

theorem integral_iff : t.Integral ↔ t.isFloatFree :=
  List.all_eq_true.symm

theorem integral_scalar : (Ty.scalar s).Integral ↔ s.name.isFloatFree := by
  simp [Integral, names]

theorem mem_namesOfAll {q : QualName} : q ∈ namesOfAll ts ↔ ∃ t ∈ ts, q ∈ t.names := by
  induction ts with
  | nil => simp [namesOfAll]
  | cons t ts ih => simp [namesOfAll, ih]

theorem integral_tuple {r : Referencing} : (Ty.tuple r ts).Integral ↔ ∀ t ∈ ts, t.Integral := by
  simp only [Integral, names, mem_namesOfAll]
  exact ⟨fun h t ht q hq => h q ⟨t, ht, hq⟩, fun h q ⟨t, ht, hq⟩ => h t ht q hq⟩

mutual

theorem names_unnamed : ∀ t : Ty, t.unnamed.names = t.names
  | .scalar _ | .tuple .. | .lambda .. | .namedScalar .. | .namedLambda .. => rfl
  | .namedGroup _ ts => namesOfAll_unnamedAll ts

theorem namesOfAll_unnamedAll : ∀ ts : List Ty, namesOfAll (unnamedAll ts) = namesOfAll ts
  | [] => rfl
  | t :: ts => by simp only [unnamedAll, namesOfAll, names_unnamed t, namesOfAll_unnamedAll ts]

end

theorem Integral.scalar (h : t.Integral) (hs : t.scalar? = some s) : s.name.isFloatFree := by
  cases t <;> simp_all [scalar?, Integral, names]

theorem Integral.members (h : t.Integral) (hts : t.members? = some ts) : ∀ u ∈ ts, u.Integral := by
  cases t with
  | tuple r us =>
    cases hts
    exact integral_tuple.mp h
  | namedGroup r us =>
    cases hts
    have hnames : (Ty.tuple r (unnamedAll us)).names = (Ty.namedGroup r us).names := by
      simp only [names, namesOfAll_unnamedAll]
    exact integral_tuple.mp fun q hq => h q (hnames ▸ hq)
  | _ => exact absurd hts (by simp [members?])

/-- A primitive type that is integral is no floating-point type. -/
theorem Integral.isFloat_eq (h : t.Integral) (hp : t.primitive? = some p) : p.isFloat = false := by
  obtain ⟨s, hs, -, -, -, hname⟩ := scalar_of_primitive? hp
  simpa [QualName.isFloatFree, hname] using h.scalar hs

theorem integral_ofPrimitive (hp : p.isFloat = false) : (Ty.ofPrimitive p).Integral := by
  refine integral_scalar.mpr ?_
  revert hp
  cases p <;> decide

end Ty

/-! ## What a unit sees -/

/-- A unit sees nothing but its own classes and methods. All types are integral, and all methods are
found. -/
structure Env.Integral (env : Env) (found : MethodDef → Prop) : Prop where
  imported : env.imported = []
  used : env.used = []
  fields : ∀ name c, env.own.class? name = some c → ∀ f ∈ c.fields, f.type.name.isFloatFree
  methods : ∀ key, ∀ f ∈ env.own.overloads key, found f ∧ f.method.result.unnamed.Integral

namespace Env

variable {env : Env} {found : MethodDef → Prop}

theorem Integral.own_of_class? (henv : env.Integral found) {q : QualName} {c : ClassAt}
    (h : env.class? q = some c) :
    c.owner = .own ∧ ∃ w, env.own.class? w = some c.cls := by
  unfold class? at h
  split at h
  next w _ =>
    split at h
    next c' hc' =>
      cases h
      exact ⟨rfl, w, hc'⟩
    next =>
      rw [henv.used] at h
      cases h
  next =>
    rw [imported?, henv.imported] at h
    cases h
  next => cases h

end Env

end SsaCompiler
