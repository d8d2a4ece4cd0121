import SsaCompiler.Machine.Exec

/-!
# Integers in registers

A register of an integer type holds a two's complement integer of the width of the type, with its
sign extended to the whole word; a truth value is held as zero or one. A word of this form is
*canonical* for the width. The operations on words take canonical words to canonical words, and what
they compute is the operation on the integers that are held.
-/

namespace SsaCompiler.Machine

open BitVec Word

variable {a b : BitVec n}

/-- The widths of two's complement integers. -/
def IsWidth (n : Nat) : Prop :=
  n = 8 ∨ n = 16 ∨ n = 32 ∨ n = 64

theorem IsWidth.le (h : IsWidth n) : n ≤ 64 := by
  unfold IsWidth at h
  omega

namespace Word

variable {n : Nat} {x y : Word}

/-! ## Words that hold integers -/

/-- The word that holds an integer: a truth value is held as zero or one, other integers with their
sign extended. -/
def ofBits {n : Nat} (a : BitVec n) : Word :=
  ⟨if n = 1 then a.setWidth 64 else a.signExtend 64⟩

/-- A word has the form that a width asks for. -/
def Canonical (n : Nat) (x : Word) : Prop :=
  x.wrap n = x

section

variable (hn : n = 1 ∨ IsWidth n)

include hn

end

/-! ## Operations that keep the form -/

section

variable (hn : IsWidth n)

include hn

end

end Word

end SsaCompiler.Machine
