import Mathlib.Data.List.Forall2
import SsaCompiler.Ty.Identity

/-!
# Erased types

Identity of types is equality of what is left of them without qualifiers, binding names and the mark
of type words.
-/

namespace SsaCompiler.Ty

mutual

/-- The type without qualifiers, binding names and the mark of type words. -/
def erase : Ty → Ty
  | .scalar s | .namedScalar s _ => .scalar (eraseScalar s)
  | .tuple _ ts | .namedGroup _ ts => .tuple .none (eraseAll ts)
  | .lambda r ps | .namedLambda r ps _ => .lambda (erase r) (eraseParams ps)

def eraseAll : List Ty → List Ty
  | [] => []
  | t :: ts => erase t :: eraseAll ts

def eraseScalar : Scalar → Scalar
  | .mk _ n none ds => .mk .none ⟨n.segments, false⟩ none ds
  | .mk _ n (some as) ds => .mk .none ⟨n.segments, false⟩ (some (eraseArgs as)) ds

def eraseArg : TypeArg → TypeArg
  | .mk none none => .mk none none
  | .mk none (some as) => .mk none (some (eraseArgs as))
  | .mk (some t) none => .mk (some (erase t)) none
  | .mk (some t) (some as) => .mk (some (erase t)) (some (eraseArgs as))

def eraseArgs : List TypeArg → List TypeArg
  | [] => []
  | a :: as => eraseArg a :: eraseArgs as

def eraseParams : List LambdaParam → List LambdaParam
  | [] => []
  | .mk _ t variadic _ :: ps => .mk .none (erase t) variadic none :: eraseParams ps

end

mutual

/-- Types are identical if nothing but qualifiers, binding names and marks tells them apart. -/
theorem identical_iff : ∀ t u : Ty, identical t u ↔ erase t = erase u
  | .scalar s, u | .namedScalar s _, u => by
    cases u <;> simp [identical, erase, identicalScalars_iff s]
  | .tuple _ ts, u | .namedGroup _ ts, u => by
    cases u <;> simp [identical, erase, identicalAll_iff ts]
  | .lambda r ps, u | .namedLambda r ps _, u => by
    cases u <;> simp [identical, erase, identical_iff r, identicalParams_iff ps]

theorem identicalAll_iff : ∀ ts us : List Ty, identicalAll ts us ↔ eraseAll ts = eraseAll us
  | [], us => by cases us <;> simp [identicalAll, eraseAll]
  | t :: ts, us => by
    cases us <;> simp [identicalAll, eraseAll, identical_iff t, identicalAll_iff ts]

theorem identicalScalars_iff : ∀ s t : Scalar, identicalScalars s t ↔ eraseScalar s = eraseScalar t
  | .mk _ n none ds, t => by
    obtain ⟨_, m, _ | _, es⟩ := t <;> simp [identicalScalars, eraseScalar]
  | .mk _ n (some as) ds, t => by
    obtain ⟨_, m, _ | _, es⟩ := t <;>
      simp [identicalScalars, eraseScalar, identicalArgs_iff as, and_assoc]

theorem identicalArg_iff : ∀ a b : TypeArg, identicalArg a b ↔ eraseArg a = eraseArg b
  | .mk none none, b => by
    obtain ⟨_ | _, _ | _⟩ := b <;> simp [identicalArg, eraseArg]
  | .mk none (some as), b => by
    obtain ⟨_ | _, _ | _⟩ := b <;> simp [identicalArg, eraseArg, identicalArgs_iff as]
  | .mk (some t) none, b => by
    obtain ⟨_ | _, _ | _⟩ := b <;> simp [identicalArg, eraseArg, identical_iff t]
  | .mk (some t) (some as), b => by
    obtain ⟨_ | _, _ | _⟩ := b <;>
      simp [identicalArg, eraseArg, identical_iff t, identicalArgs_iff as]

theorem identicalArgs_iff :
    ∀ as bs : List TypeArg, identicalArgs as bs ↔ eraseArgs as = eraseArgs bs
  | [], bs => by cases bs <;> simp [identicalArgs, eraseArgs]
  | a :: as, bs => by
    cases bs <;> simp [identicalArgs, eraseArgs, identicalArg_iff a, identicalArgs_iff as]

theorem identicalParams_iff :
    ∀ ps qs : List LambdaParam, identicalParams ps qs ↔ eraseParams ps = eraseParams qs
  | [], qs => by
    rcases qs with _ | ⟨⟨_, _, _, _⟩, _⟩ <;> simp [identicalParams, eraseParams]
  | .mk _ t variadic _ :: ps, qs => by
    rcases qs with _ | ⟨⟨_, _, _, _⟩, _⟩ <;>
      simp [identicalParams, identicalParam, eraseParams, identical_iff t, identicalParams_iff ps,
        and_comm]

end

theorem identicalAll_forall₂ (ts us : List Ty) :
    identicalAll ts us ↔ List.Forall₂ (fun t u => identical t u) ts us := by
  induction ts generalizing us with
  | nil => cases us <;> simp [identicalAll]
  | cons t ts ih => cases us <;> simp [identicalAll, ih]

theorem identicalArgs_forall₂ (as bs : List TypeArg) :
    identicalArgs as bs ↔ List.Forall₂ (fun a b => identicalArg a b) as bs := by
  induction as generalizing bs with
  | nil => cases bs <;> simp [identicalArgs]
  | cons a as ih => cases bs <;> simp [identicalArgs, ih]

theorem identicalParams_forall₂ (ps qs : List LambdaParam) :
    identicalParams ps qs ↔ List.Forall₂ (fun p q => identicalParam p q) ps qs := by
  induction ps generalizing qs with
  | nil => cases qs <;> simp [identicalParams]
  | cons p ps ih => cases qs <;> simp [identicalParams, ih]

/-- Identity is equality of erased types, so it is an equivalence, and it goes through tuples, function
types and type arguments. -/
theorem identity_eq_erasure :
    (∀ t u, identical t u ↔ erase t = erase u) ∧ Equivalence (fun t u => identical t u) ∧
      (∀ r r' ts us, identical (.tuple r ts) (.tuple r' us) ↔
        List.Forall₂ (fun t u => identical t u) ts us) ∧
      (∀ t u ps qs, identical (.lambda t ps) (.lambda u qs) ↔
        identical t u ∧ List.Forall₂ (fun p q => identicalParam p q) ps qs) ∧
      (∀ r r' t u v w n m, identicalParam (.mk r t v n) (.mk r' u w m) ↔ v = w ∧ identical t u) ∧
      (∀ r r' n m as bs ds es,
        identical (.scalar (.mk r n (some as) ds)) (.scalar (.mk r' m (some bs) es)) ↔
          n.segments = m.segments ∧ List.Forall₂ (fun a b => identicalArg a b) as bs ∧ ds = es) ∧
      ∀ t u as, identical t u → identicalArg (.mk (some t) as) (.mk (some u) as) := by
  refine ⟨identical_iff, ⟨fun t => ?_, fun {t u} h => ?_, fun {t u v} h h' => ?_⟩, ?_, ?_, ?_, ?_, ?_⟩
  · rw [identical_iff]
  · rw [identical_iff] at h ⊢
    exact h.symm
  · rw [identical_iff] at h h' ⊢
    exact h.trans h'
  · intro r r' ts us
    rw [identical, identicalAll_forall₂]
  · intro t u ps qs
    rw [identical, Bool.and_eq_true, identicalParams_forall₂]
  · intro r r' t u v w n m
    rw [identicalParam, Bool.and_eq_true, beq_iff_eq]
  · intro r r' n m as bs ds es
    simp [identical, identicalScalars, identicalArgs_forall₂, and_assoc]
  · intro t u as h
    rw [identical_iff] at h
    rw [identicalArg_iff]
    cases as <;> simp [eraseArg, h]

end SsaCompiler.Ty
