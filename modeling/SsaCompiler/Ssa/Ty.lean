/-!
# Machine types

The types of values after lowering: integers of any width, the two floating-point formats, pointers,
arrays, structures and functions. Types are compared by structure, and the written form of a type
determines it.
-/

namespace SsaCompiler.Ssa

/-- A machine type. -/
inductive Ty where
  | void
  | int (bits : Nat)
  | float
  | double
  | pointer (elem : Ty)
  | array (len : Int) (elem : Ty)
  | struct (fields : List Ty)
  | func (result : Ty) (params : List Ty) (variadic : Bool)
  deriving Repr, Inhabited

inductive TyKind where
  | void | int | float | pointer | array | struct | func
  deriving DecidableEq, Repr

namespace TyKind

def all : List TyKind := [.void, .int, .float, .pointer, .array, .struct, .func]

def name : TyKind → String
  | .void => "void"
  | .int => "int"
  | .float => "float"
  | .pointer => "pointer"
  | .array => "array"
  | .struct => "struct"
  | .func => "func"

def nameOfCode (n : Nat) : String :=
  (all[n]?).elim "unknown" name

end TyKind

namespace Ty

mutual

def beq : Ty → Ty → Bool
  | .void, .void => true
  | .int m, .int n => m == n
  | .float, .float => true
  | .double, .double => true
  | .pointer s, .pointer t => beq s t
  | .array m s, .array n t => m == n && beq s t
  | .struct ss, .struct ts => beqAll ss ts
  | .func r ps v, .func s qs w => beq r s && beqAll ps qs && v == w
  | _, _ => false

def beqAll : List Ty → List Ty → Bool
  | [], [] => true
  | s :: ss, t :: ts => beq s t && beqAll ss ts
  | _, _ => false

end

mutual

theorem eq_of_beq : ∀ {s t : Ty}, beq s t = true → s = t
  | .void, t, h => by cases t <;> simp_all [beq]
  | .int m, t, h => by cases t <;> simp_all [beq]
  | .float, t, h => by cases t <;> simp_all [beq]
  | .double, t, h => by cases t <;> simp_all [beq]
  | .pointer s, t, h => by
    cases t <;> simp [beq] at h
    rw [eq_of_beq h]
  | .array m s, t, h => by
    cases t <;> simp [beq] at h
    rw [h.1, eq_of_beq h.2]
  | .struct ss, t, h => by
    cases t <;> simp [beq] at h
    rw [eq_of_beqAll h]
  | .func r ps v, t, h => by
    cases t <;> simp [beq] at h
    rw [eq_of_beq h.1.1, eq_of_beqAll h.1.2, h.2]

theorem eq_of_beqAll : ∀ {ss ts : List Ty}, beqAll ss ts = true → ss = ts
  | [], [], _ => rfl
  | [], _ :: _, h => by simp [beqAll] at h
  | _ :: _, [], h => by simp [beqAll] at h
  | s :: ss, t :: ts, h => by
    simp [beqAll] at h
    rw [eq_of_beq h.1, eq_of_beqAll h.2]

end

mutual

theorem beq_self : ∀ t : Ty, beq t t = true
  | .void | .int _ | .float | .double => by simp [beq]
  | .pointer t => by simp [beq, beq_self t]
  | .array _ t => by simp [beq, beq_self t]
  | .struct ts => by simp [beq, beqAll_self ts]
  | .func r ps _ => by simp [beq, beq_self r, beqAll_self ps]

theorem beqAll_self : ∀ ts : List Ty, beqAll ts ts = true
  | [] => by simp [beqAll]
  | t :: ts => by simp [beqAll, beq_self t, beqAll_self ts]

end

instance : DecidableEq Ty := fun s t =>
  if h : beq s t = true then .isTrue (eq_of_beq h)
  else .isFalse fun e => h (e ▸ beq_self s)

def kind : Ty → TyKind
  | .void => .void
  | .int _ => .int
  | .float | .double => .float
  | .pointer _ => .pointer
  | .array .. => .array
  | .struct _ => .struct
  | .func .. => .func

/-- The width of an integer or floating-point type; zero for others. -/
def bits : Ty → Nat
  | .int n => n
  | .float => 32
  | .double => 64
  | _ => 0

/-- The type that a pointer leads to or that an array holds. -/
def elem? : Ty → Option Ty
  | .pointer t => some t
  | .array _ t => some t
  | _ => none

/-- The length of an array; zero for others. -/
def len : Ty → Int
  | .array n _ => n
  | _ => 0

def fields : Ty → List Ty
  | .struct ts => ts
  | _ => []

def result? : Ty → Option Ty
  | .func r _ _ => some r
  | _ => none

/-- The result of a function type; void for others. -/
def result (t : Ty) : Ty :=
  t.result?.getD .void

def params : Ty → List Ty
  | .func _ ps _ => ps
  | _ => []

/-- Whether a function type takes further arguments. -/
def isVariadic : Ty → Bool
  | .func _ _ v => v
  | _ => false

/-- Whether values of the type fit a register. -/
def isScalar : Ty → Bool
  | .int _ | .float | .double | .pointer _ => true
  | _ => false

def isVoid : Ty → Bool
  | .void => true
  | _ => false

def isInt : Ty → Bool
  | .int _ => true
  | _ => false

def isFloat : Ty → Bool
  | .float | .double => true
  | _ => false

def isPointer : Ty → Bool
  | .pointer _ => true
  | _ => false

mutual

def render : Ty → String
  | .void => "void"
  | .int n => "i" ++ toString n
  | .float => "float"
  | .double => "double"
  | .pointer t => render t ++ "*"
  | .array n t => "[" ++ toString n ++ " x " ++ render t ++ "]"
  | .struct [] => "\x7b\x7d"
  | .struct (t :: ts) => "\x7b " ++ ", ".intercalate (renderAll (t :: ts)) ++ " \x7d"
  | .func r ps v =>
    render r ++ " (" ++ ", ".intercalate (renderAll ps ++ if v then ["..."] else []) ++ ")"

def renderAll : List Ty → List String
  | [] => []
  | t :: ts => render t :: renderAll ts

end

end Ty

end SsaCompiler.Ssa
