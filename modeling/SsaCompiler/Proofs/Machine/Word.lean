import SsaCompiler.Lowering.Expr
import SsaCompiler.Machine.Exec
import SsaCompiler.Proofs.Core.Sound

/-!
# Words for integers

A word stands for a signed integer, and the operations of the machine on words are those of the
evaluator on the integers. A value of a primitive type is the same before and after its word is cut
to the width of the type.
-/

namespace SsaCompiler

/-! ## Numbers of a primitive type -/

namespace Primitive

variable {p : Primitive} {n : Int}

theorem Holds.range (hp : p.isPlain) (h : p.Holds n) : -(2 ^ 63) ≤ n ∧ n < 2 ^ 63 := by
  cases p <;> simp_all [isPlain, Holds, bits] <;> omega

theorem Holds.reduce (hp : p.isPlain) (hb : p ≠ .bool) (h : p.Holds n) : p.reduce n = n := by
  refine Int.bmod_eq_of_le ?_ ?_ <;>
    cases p <;> simp_all [isPlain, Holds, bits]

theorem holds_reduce (hp : p.isPlain) (hb : p ≠ .bool) (n : Int) : p.Holds (p.reduce n) := by
  have hpos : 0 < 2 ^ p.bits := Nat.two_pow_pos _
  have hlo := Int.le_bmod (x := n) hpos
  have hhi := Int.bmod_lt (x := n) hpos
  unfold Primitive.reduce
  cases p <;> simp_all [isPlain, Holds, bits]

theorem holds_zero (p : Primitive) : p.Holds 0 := by
  cases p <;> simp [Holds] <;> decide

theorem holds_one (hp : p.isPlain) (hb : p ≠ .bool) : p.Holds 1 := by
  cases p <;> simp_all [isPlain, Holds, bits]

theorem holds_ofBool (b : Bool) : Primitive.bool.Holds (Core.ofBool b) := by
  cases b
  · exact .inl rfl
  · exact .inr rfl

end Primitive

namespace Machine

/-! ## Words -/

namespace Word

variable {p : Primitive} {n a b : Int}

theorem toBitVec_ofInt (n : Int) : (ofInt n).toBitVec = BitVec.ofInt 64 n := by
  refine BitVec.eq_of_toNat_eq ?_
  exact Nat.mod_eq_of_lt (by omega)

theorem signed_ofInt (n : Int) : (ofInt n).signed = n.bmod (2 ^ 64) := by
  show (ofInt n).toBitVec.toInt = _
  rw [toBitVec_ofInt, BitVec.toInt_ofInt]

theorem ofInt_signed (x : Word) : ofInt x.signed = x := by
  refine UInt64.toBitVec_inj.mp ?_
  rw [toBitVec_ofInt]
  exact BitVec.ofInt_toInt

theorem signed_inj {x y : Word} (h : x.signed = y.signed) : x = y := by
  rw [← ofInt_signed x, h, ofInt_signed]

theorem ofInt_bmod (n : Int) {k : Nat} (hk : k = 2 ^ 64) : ofInt (n.bmod k) = ofInt n := by
  subst hk
  refine signed_inj ?_
  rw [signed_ofInt, signed_ofInt, Int.bmod_bmod]

theorem signed_ofInt_of_range (hlo : -(2 ^ 63) ≤ n) (hhi : n < 2 ^ 63) : (ofInt n).signed = n := by
  rw [signed_ofInt, Int.bmod_eq_of_le] <;> omega

theorem signed_ofInt_of_holds (hp : p.isPlain) (h : p.Holds n) : (ofInt n).signed = n :=
  signed_ofInt_of_range (h.range hp).1 (h.range hp).2

theorem ofInt_inj (ha : -(2 ^ 63) ≤ a ∧ a < 2 ^ 63) (hb : -(2 ^ 63) ≤ b ∧ b < 2 ^ 63) :
    ofInt a = ofInt b ↔ a = b := by
  refine ⟨fun h => ?_, fun h => h ▸ rfl⟩
  have := congrArg signed h
  rwa [signed_ofInt_of_range ha.1 ha.2, signed_ofInt_of_range hb.1 hb.2] at this

/-! ## Cutting words -/

theorem signed_eq_bmod (x : Word) : x.signed = (x.toNat : Int).bmod (2 ^ 64) :=
  BitVec.toInt_eq_toNat_bmod x.toBitVec

theorem signed_wrap_eight (x : Word) : (x.wrap 8).signed = x.signed.bmod (2 ^ 8) := by
  have h : (x.wrap 8).signed = (x.toNat : Int).bmod (2 ^ 8) :=
    (Int8.toInt_toInt64 _).trans (BitVec.toInt_setWidth x.toBitVec)
  rw [h, signed_eq_bmod, Int.bmod_bmod_of_dvd (by decide)]

theorem signed_wrap_sixteen (x : Word) : (x.wrap 16).signed = x.signed.bmod (2 ^ 16) := by
  have h : (x.wrap 16).signed = (x.toNat : Int).bmod (2 ^ 16) :=
    (Int16.toInt_toInt64 _).trans (BitVec.toInt_setWidth x.toBitVec)
  rw [h, signed_eq_bmod, Int.bmod_bmod_of_dvd (by decide)]

theorem signed_wrap_thirtyTwo (x : Word) : (x.wrap 32).signed = x.signed.bmod (2 ^ 32) := by
  have h : (x.wrap 32).signed = (x.toNat : Int).bmod (2 ^ 32) :=
    (Int32.toInt_toInt64 _).trans (BitVec.toInt_setWidth x.toBitVec)
  rw [h, signed_eq_bmod, Int.bmod_bmod_of_dvd (by decide)]

/-- A word is cut as the integer is reduced. -/
theorem wrap_ofInt (hp : p.isPlain) (hb : p ≠ .bool) (n : Int) :
    (ofInt n).wrap p.bits = ofInt (p.reduce n) := by
  have hcut : ∀ {k : Nat}, (2 ^ k : Nat) ∣ 2 ^ 64 →
      ((ofInt n).wrap k).signed = (ofInt n).signed.bmod (2 ^ k) →
      -(2 ^ 63) ≤ n.bmod (2 ^ k) ∧ n.bmod (2 ^ k) < 2 ^ 63 →
      (ofInt n).wrap k = ofInt (n.bmod (2 ^ k)) := by
    intro k hk hw hr
    refine signed_inj ?_
    rw [hw, signed_ofInt, Int.bmod_bmod_of_dvd hk, signed_ofInt_of_range hr.1 hr.2]
  have hr := (Primitive.holds_reduce hp hb n).range hp
  cases p with
  | byte => exact hcut (by decide) (signed_wrap_eight _) hr
  | short => exact hcut (by decide) (signed_wrap_sixteen _) hr
  | int => exact hcut (by decide) (signed_wrap_thirtyTwo _) hr
  | long => exact (ofInt_bmod n rfl).symm
  | bool => exact absurd rfl hb
  | _ => exact absurd hp (by decide)

theorem wrap_ofInt_of_holds (hp : p.isPlain) (h : p.Holds n) : (ofInt n).wrap p.bits = ofInt n := by
  by_cases hb : p = .bool
  · subst hb
    rcases h with rfl | rfl <;> rfl
  · rw [wrap_ofInt hp hb, h.reduce hp hb]

/-- A truth value is widened without its sign. -/
theorem low_ofInt_of_bool (h : Primitive.bool.Holds n) : (ofInt n).low 1 = ofInt n := by
  rcases h with rfl | rfl <;> rfl

theorem ofBool_eq (b : Bool) : ofBool b = ofInt (Core.ofBool b) := by
  cases b <;> rfl

/-! ## Arithmetic -/

theorem ofInt_sub (a b : Int) : ofInt (a - b) = ofInt a - ofInt b := by
  show UInt64.ofInt (a - b) = UInt64.ofInt a - UInt64.ofInt b
  rw [Int.sub_eq_add_neg, UInt64.ofInt_add, UInt64.ofInt_neg, UInt64.sub_eq_add_neg]

theorem ofInt_neg (a : Int) : ofInt (-a) = 0 - ofInt a := by
  rw [← Int.zero_sub, ofInt_sub]
  rfl

theorem ofInt_eq_zero (hp : p.isPlain) (h : p.Holds n) : ofInt n = 0 ↔ n = 0 :=
  ofInt_inj (b := 0) (h.range hp) (by decide)

theorem quotient_ofInt (hp : p.isPlain) (ha : p.Holds a) (hb : p.Holds b) :
    (ofInt a).quotient (ofInt b) = ofInt (a.tdiv b) := by
  refine signed_inj ?_
  rw [signed_ofInt]
  show ((ofInt a).toInt64 / (ofInt b).toInt64).toInt = _
  rw [Int64.toInt_div]
  show ((ofInt a).signed.tdiv (ofInt b).signed).bmod _ = _
  rw [signed_ofInt_of_holds hp ha, signed_ofInt_of_holds hp hb]

theorem remainder_ofInt (hp : p.isPlain) (ha : p.Holds a) (hb : p.Holds b) :
    (ofInt a).remainder (ofInt b) = ofInt (a.tmod b) := by
  rw [← ofInt_signed ((ofInt a).remainder (ofInt b))]
  refine congrArg ofInt ?_
  show ((ofInt a).toInt64 % (ofInt b).toInt64).toInt = _
  rw [Int64.toInt_mod]
  show (ofInt a).signed.tmod (ofInt b).signed = _
  rw [signed_ofInt_of_holds hp ha, signed_ofInt_of_holds hp hb]

theorem not_ofInt (h : Primitive.bool.Holds n) :
    (~~~ofInt n).wrap 1 = ofInt (Core.ofBool (n == 0)) := by
  rcases h with rfl | rfl <;> decide

end Word

/-- A comparison of words is one of the integers. -/
theorem compareInt_ofInt {p : Primitive} {a b : Int} (op : BinaryOp) (hp : p.isPlain)
    (ha : p.Holds a) (hb : p.Holds b) :
    compareInt (Lowering.intPredicate op) (Word.ofInt a) (Word.ofInt b) = Core.compared op a b := by
  have heq := Word.ofInt_inj (ha.range hp) (hb.range hp)
  have hlt : ∀ {x y : Int}, p.Holds x → p.Holds y →
      ((Word.ofInt x).toInt64 < (Word.ofInt y).toInt64 ↔ x < y) := by
    intro x y hx hy
    rw [Int64.lt_iff_toInt_lt]
    show (Word.ofInt x).signed < (Word.ofInt y).signed ↔ _
    rw [Word.signed_ofInt_of_holds hp hx, Word.signed_ofInt_of_holds hp hy]
  have hle : ∀ {x y : Int}, p.Holds x → p.Holds y →
      ((Word.ofInt x).toInt64 ≤ (Word.ofInt y).toInt64 ↔ x ≤ y) := by
    intro x y hx hy
    rw [Int64.le_iff_toInt_le]
    show (Word.ofInt x).signed ≤ (Word.ofInt y).signed ↔ _
    rw [Word.signed_ofInt_of_holds hp hx, Word.signed_ofInt_of_holds hp hy]
  cases op <;>
    simp [Lowering.intPredicate, compareInt, Core.compared, hlt ha hb, hlt hb ha, hle ha hb,
      hle hb ha, bne, Bool.beq_eq_decide_eq, heq]

end Machine

end SsaCompiler
