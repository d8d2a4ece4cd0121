import Mathlib.Data.List.Basic
import SsaCompiler.Proofs.Ssa.Complaints
import SsaCompiler.Proofs.Ssa.OperandTypes
import SsaCompiler.Ssa.Builder

/-!
# Typing rules and verification

Every operation has a rule for the type of its value and the types of its operands. Verification
asks for the whole rule at accesses to memory, at arithmetic on two operands and at calls. The
operands of a comparison are compared only with each other, the condition of a choice is not looked
at, and neither are the operands of negations, conversions, phi values and counted slots.
-/

namespace SsaCompiler.Ssa.Module

/-- What an operation wants of its value and of the types of its operands. -/
def Rule (m : Module) (x : Value) (types : List Ty) : Prop :=
  match x.op with
  | .load => types = [.pointer x.type]
  | .store => ∃ t, types = [.pointer t, t]
  | .free => ∃ t, types = [t] ∧ t.isPointer
  | .elemPtr => ∃ t i, types = [t, i] ∧ t.isPointer ∧ i.isInt
  | .fieldPtr => ∃ ts t, ∃ i : Nat, types = [.pointer (.struct ts)] ∧ x.auxInt = i ∧
      ts[i]? = some t ∧ x.type = .pointer t
  | .alloca => types = [] ∨ ∃ n, types = [.int n]
  | .trunc => ∃ n k, types = [.int n] ∧ x.type = .int k ∧ k < n
  | .sext | .zext => ∃ n k, types = [.int n] ∧ x.type = .int k ∧ n < k
  | .fpToSi => ∃ t k, types = [t] ∧ t.isFloat ∧ x.type = .int k
  | .siToFp => ∃ n, types = [.int n] ∧ x.type.isFloat
  | .fpTrunc => types = [.double] ∧ x.type = .float
  | .fpExt => types = [.float] ∧ x.type = .double
  | .add | .sub | .mul | .div | .rem | .and | .or => types = [x.type, x.type] ∧ x.type.isInt
  | .fadd | .fsub | .fmul | .fdiv | .frem => types = [x.type, x.type] ∧ x.type.isFloat
  | .neg | .not => types = [x.type] ∧ x.type.isInt
  | .fneg => types = [x.type] ∧ x.type.isFloat
  | .icmp => ∃ t, types = [t, t] ∧ (t.isInt || t.isPointer) = true ∧ x.type = .int 1
  | .fcmp => ∃ t, types = [t, t] ∧ t.isFloat ∧ x.type = .int 1
  | .select => types = [.int 1, x.type, x.type]
  | .call => ∃ f rest, x.aux = .callee f ∧ types = (m.func f).sig.params ++ rest ∧
      ((m.func f).sig.isVariadic ∨ rest = [])
  | .phi => ∀ t ∈ types, t = x.type
  | _ => True

/-- What verification leaves open of the rule of an operation. -/
def Unseen (m : Module) (x : Value) (types : List Ty) : Prop :=
  match x.op with
  | .load | .store | .free | .elemPtr | .add | .sub | .mul | .div | .rem | .and | .or | .fadd
  | .fsub | .fmul | .fdiv | .frem | .call => True
  | .icmp => (∀ t ∈ types, (t.isInt || t.isPointer) = true) ∧ x.type = .int 1
  | .fcmp => (∀ t ∈ types, t.isFloat) ∧ x.type = .int 1
  | .select => types.head? = some (.int 1)
  | _ => m.Rule x types

variable {m : Module} {x : Value} {args : List Value}

theorem unless?_eq_none {ok : Bool} {complaint : String} :
    unless? ok complaint = none ↔ ok = true := by
  cases ok <;> simp [unless?]

theorem wrongCount?_eq_none {n : Nat} : wrongCount? args n = none ↔ args.length = n := by
  simp [wrongCount?]

/-- A call without complaints passes what the parameters want, and only functions that take further
arguments are passed more. -/
theorem types_of_wrongArg? {callee : String} {ps : List Ty} {i : Nat}
    (h : wrongArg? callee i args ps = none) (hlen : ps.length ≤ args.length) :
    args.map Value.type = ps ++ (args.drop ps.length).map Value.type := by
  induction ps generalizing args i with
  | nil => simp
  | cons p ps ih =>
    cases args with
    | nil => simp at hlen
    | cons a args =>
      simp only [wrongArg?] at h
      split at h
      next ha =>
        have hrest := ih h (Nat.le_of_succ_le_succ hlen)
        simp only [List.map_cons, List.length_cons, List.drop_succ_cons, List.cons_append,
          eq_of_beq ha, ← hrest]
      next => exact absurd h (by simp)

theorem rule_of_wrongCall? {f : FuncRef} (h : wrongCall? (m.func f) args = none) :
    ∃ rest, args.map Value.type = (m.func f).sig.params ++ rest ∧
      ((m.func f).sig.isVariadic ∨ rest = []) := by
  simp only [wrongCall?] at h
  split at h
  next => exact absurd h (by simp)
  next hcount =>
    simp only [Bool.or_eq_true, decide_eq_true_eq, Bool.and_eq_true, Bool.not_eq_true', bne_iff_ne,
      not_or, Nat.not_lt, not_and, ne_eq, not_not] at hcount
    refine ⟨_, types_of_wrongArg? h hcount.1, ?_⟩
    cases hvar : (m.func f).sig.isVariadic with
    | true => exact .inl rfl
    | false => exact .inr (by simp [hcount.2 hvar])

/-- Where verification has no complaint about the operands, the rule says no more than what is left
open of it. -/
theorem rule_iff_unseen (h : m.wrongOperands? x args = none) :
    m.Rule x (args.map Value.type) ↔ m.Unseen x (args.map Value.type) := by
  unfold Rule Unseen
  cases hop : x.op with
  | load | store | free | elemPtr | add | sub | mul | div | rem | and | or | fadd | fsub | fmul
  | fdiv | frem | icmp | fcmp =>
    rcases args with _ | ⟨p, _ | ⟨q, _ | ⟨r, args⟩⟩⟩ <;>
      simp [wrongOperands?, hop, wrongCount?_eq_none, unless?_eq_none] at h
    simp [h]
  | select =>
    rcases args with _ | ⟨p, _ | ⟨q, _ | ⟨r, _ | ⟨s, args⟩⟩⟩⟩ <;>
      simp [wrongOperands?, hop, wrongCount?_eq_none, unless?_eq_none] at h
    simp [← h.1, h.2]
  | call =>
    cases haux : x.aux with
    | callee f =>
      simp only [wrongOperands?, hop, haux] at h
      obtain ⟨rest, htypes, hrest⟩ := rule_of_wrongCall? h
      exact iff_of_true ⟨f, rest, rfl, htypes, hrest⟩ trivial
    | _ => simp [wrongOperands?, hop, haux] at h
  | _ => simp [Rule, hop]

/-- A value of a function that verification accepts has all its operands, and it obeys its rule
exactly if what verification leaves open of the rule holds. -/
theorem rule_iff_unseen_of_verify {r : FuncRef} (hdef : (m.func r).isDeclaration = false)
    (h : m.verify r = []) : ∀ b ∈ (m.func r).blocks, ∀ v ∈ (m.block b).values, ∃ types,
      m.argTypes v = types.map some ∧ (m.Rule (m.value v) types ↔ m.Unseen (m.value v) types) := by
  intro b hb v hv
  obtain ⟨entry, hentry⟩ := Option.isSome_iff_exists.mp (Option.isNone_eq_false_iff.mp hdef)
  have hblock := ((verify_eq_nil hentry).mp h).2.2.1 b hb
  have hvalue := (blockComplaints_eq_nil.mp hblock).2.2.1 v hv
  obtain ⟨-, -, hargs, -, hoperands⟩ := valueComplaints_eq_nil.mp hvalue
  exact ⟨_, map_typeOf_eq hargs, rule_iff_unseen hoperands⟩

/-- A function that negates an address and doubles an integer. -/
def negateAddress : Module :=
  let steps : Build Unit := do
    let f ← Build.defineFunction "f" (.func (.int 32) [.pointer (.int 32), .int 32] false) []
    Build.setInsertPoint (((← Build.module).func f).entry.getD 0)
    let _ ← Build.unary .neg 0
    Build.ret (some (← Build.binary .add 1 1))
  (steps.run { module := { name := "test" } }).toOption.elim default (·.2.module)

/-- The sum in an accepted function obeys its rule. -/
theorem rule_iff_unseen_negateAddress :
    (negateAddress.func 0).isDeclaration = false ∧ negateAddress.verify 0 = [] ∧
      ∃ types, negateAddress.argTypes 3 = types.map some ∧
        negateAddress.Rule (negateAddress.value 3) types := by
  have hdef : (negateAddress.func 0).isDeclaration = false := by decide +kernel
  have hverify : negateAddress.verify 0 = [] := by decide +kernel
  obtain ⟨types, htypes, hrule⟩ := rule_iff_unseen_of_verify hdef hverify 0 (by decide +kernel) 3
    (by decide +kernel)
  have hop : (negateAddress.value 3).op = .add := by decide +kernel
  exact ⟨hdef, hverify, types, htypes, hrule.mpr (by simp [Unseen, hop])⟩

/-- Verification accepts the negation of an address, which is an operation on integers. -/
theorem verify_negateAddress :
    negateAddress.verify 0 = [] ∧ negateAddress.argTypes 2 = [some (.pointer (.int 32))] ∧
      ¬ negateAddress.Rule (negateAddress.value 2) [.pointer (.int 32)] := by
  have hop : (negateAddress.value 2).op = .neg := by decide +kernel
  have htype : (negateAddress.value 2).type = .pointer (.int 32) := by decide +kernel
  exact ⟨by decide +kernel, by decide +kernel, by simp [Rule, hop, htype, Ty.isInt]⟩

end SsaCompiler.Ssa.Module
