import SsaCompiler.Ssa.Module
import SsaCompiler.Target

/-!
# Types of operands

What the types of a module say about the words that its values can have. Verification does not see
all of it: it looks neither at the operands of conversions and of phi values nor at the type of a
call. `Module.Typed` lists what holds of every block in the table of a module, whether or not a
function still has the block.

The number of bytes that `printf` gives back is no integer of the width of its type. It is kept out
by `Module.IsPrintCount`: no value and no end of a block uses it.
-/

namespace SsaCompiler.Ssa

open List

variable {t s : Ty}

/-! ## Widths -/

mutual

/-- Whether all integers in a type have a width of 1, 8, 16, 32 or 64 bits. -/
def Ty.isStandard : Ty → Bool
  | .void | .float | .double => true
  | .int n => n == 1 || n == 8 || n == 16 || n == 32 || n == 64
  | .pointer t | .array _ t => isStandard t
  | .struct ts => areStandard ts
  | .func r ps _ => isStandard r && areStandard ps

/-- Whether all integers in the types have a width of 1, 8, 16, 32 or 64 bits. -/
def Ty.areStandard : List Ty → Bool
  | [] => true
  | t :: ts => isStandard t && areStandard ts

end

/-- All integers in the type have a width of 1, 8, 16, 32 or 64 bits. -/
def Ty.Standard (t : Ty) : Prop :=
  t.isStandard

instance (t : Ty) : Decidable t.Standard :=
  inferInstanceAs (Decidable t.isStandard)

namespace Ty

theorem areStandard_iff {ts : List Ty} : areStandard ts ↔ ∀ t ∈ ts, t.Standard := by
  induction ts with
  | nil => simp [areStandard]
  | cons t ts ih => simp [areStandard, ih, Standard]

@[simp] theorem standard_void : Standard .void := rfl

@[simp] theorem standard_pointer : (pointer t).Standard ↔ t.Standard :=
  Iff.rfl

theorem standard_struct {ts : List Ty} : (struct ts).Standard ↔ ∀ t ∈ ts, t.Standard :=
  areStandard_iff

theorem standard_func {r : Ty} {ps : List Ty} {variadic : Bool} :
    (func r ps variadic).Standard ↔ r.Standard ∧ ∀ t ∈ ps, t.Standard := by
  rw [← areStandard_iff]
  exact Bool.and_eq_true_iff

theorem Standard.elem (h : t.Standard) (hs : t.elem? = some s) : s.Standard := by
  cases t <;> simp [elem?] at hs
  all_goals
    subst hs
    exact h

theorem Standard.elem_getD (h : t.Standard) : (t.elem?.getD .void).Standard := by
  cases hs : t.elem? with
  | none => exact standard_void
  | some s => exact h.elem hs

theorem Standard.result (h : t.Standard) : t.result.Standard := by
  cases t with
  | func r ps v => exact (standard_func.mp h).1
  | _ => exact standard_void

theorem Standard.params (h : t.Standard) (hs : s ∈ t.params) : s.Standard := by
  cases t with
  | func r ps v => exact (standard_func.mp h).2 s hs
  | _ => exact absurd hs not_mem_nil

theorem Standard.fields (h : t.Standard) (hs : s ∈ t.fields) : s.Standard := by
  cases t with
  | struct ts => exact standard_struct.mp h s hs
  | _ => exact absurd hs not_mem_nil

end Ty

/-! ## Operations -/

/-- Whether the value of an operation is always an address or a floating-point number. -/
def Op.neverInt : Op → Bool
  | .constFloat | .global | .alloca | .malloc | .elemPtr | .fieldPtr | .siToFp | .fpTrunc | .fpExt
  | .fadd | .fsub | .fmul | .fdiv | .frem | .fneg => true
  | _ => false

/-- What a value wants of its type and of the types of its arguments. `result` gives the results of
the functions. -/
def Takes (result : FuncRef → Ty) (x : Value) (types : List (Option Ty)) : Prop :=
  match x.op with
  | .alloca => x.type.isPointer
  | .load => types = [some (.pointer x.type)]
  | .store => ∃ t, types = [some (.pointer t), some t]
  | .trunc => ∃ t, types = [some t] ∧ x.type.bits < t.bits
  | .sext => ∃ t, types = [some t] ∧ t.bits < x.type.bits
  | .zext => types = [some (.int 1)]
  | .neg | .not => types = [some x.type]
  | .add | .sub | .mul | .div | .rem | .and | .or => types = [some x.type, some x.type]
  | .icmp => ∃ t, types = [some t, some t]
  | .select => ∃ t, types = [t, some x.type, some x.type]
  | .phi => ∀ t, some t ∈ types → t = x.type
  | .call => ∀ f, x.aux = .callee f → x.type = result f
  | _ => True

namespace Module

/-- The types of the arguments of a value. -/
def argTypes (m : Module) (v : ValueRef) : List (Option Ty) :=
  (m.value v).args.map (Option.map m.typeOf)

/-- The type of the result of a function. -/
def resultOf (m : Module) (f : FuncRef) : Ty :=
  (m.func f).sig.result

/-- Whether a value is the number of bytes that `printf` has written. -/
def IsPrintCount (m : Module) (v : ValueRef) : Prop :=
  (m.value v).op = .call ∧ ∃ f, (m.value v).aux = .callee f ∧ (m.func f).isDeclaration ∧
    (m.func f).name = Target.printf.name

/-- Whether a value may be used. -/
def IsOperand (m : Module) (a : ValueRef) : Prop :=
  a < m.values.size ∧ ¬ m.IsPrintCount a

/-- The ends of blocks lead on within the function, and addresses are what is allocated. -/
structure Routed (m : Module) : Prop where
  branch : ∀ {b}, (m.block b).kind = .branch → 2 ≤ (m.block b).succs.length
  succ : ∀ {b s}, s ∈ (m.block b).succs → (m.block s).func = (m.block b).func
  entry : ∀ {f e}, (m.func f).entry = some e → (m.block e).func = f
  allocator : ∀ {f}, (m.func f).isDeclaration → (m.func f).name = Target.malloc.name →
    (m.resultOf f).isInt = false

/-- The values of a module have the types that their uses want, and the ends of its blocks lead on
within the function. -/
structure Typed (m : Module) : Prop extends Routed m where
  standard : ∀ v, (m.typeOf v).Standard
  constant : ∀ v, (m.value v).op.isConst → (m.value v).op.neverInt →
    (m.typeOf v).isInt = false
  other : ∀ {b v}, v ∈ (m.block b).values → (m.value v).op.neverInt →
    (m.typeOf v).isInt = false
  takes : ∀ {b v}, v ∈ (m.block b).values → Takes m.resultOf (m.value v) (m.argTypes v)
  operand : ∀ {b v a}, v ∈ (m.block b).values → some a ∈ (m.value v).args → m.IsOperand a
  control : ∀ {b a}, some a ∈ (m.block b).controls → m.IsOperand a
  ret : ∀ {b a}, (m.block b).kind = .ret → (m.block b).controls.head? = some (some a) →
    m.typeOf a = m.resultOf (m.block b).func

variable {m : Module} {b : BlockRef} {v a : ValueRef} {i : Nat}

theorem map_typeOf_eq {args : List (Option ValueRef)} (h : none ∉ args) :
    args.map (Option.map m.typeOf) =
      (((args.filterMap id).map m.value).map Value.type).map some := by
  induction args with
  | nil => rfl
  | cons a args ih =>
    cases a with
    | none => exact absurd mem_cons_self h
    | some a => exact congrArg (some (m.typeOf a) :: ·) (ih fun k => h (mem_cons_of_mem _ k))

namespace Typed

variable (h : m.Typed) (hv : v ∈ (m.block b).values)

include h hv

theorem type_of_phi (hop : (m.value v).op = .phi) (ht : some t ∈ m.argTypes v) :
    t = m.typeOf v := by
  have htakes := h.takes hv
  unfold Takes at htakes
  rw [hop] at htakes
  exact htakes t ht

end Typed

end Module

end SsaCompiler.Ssa
