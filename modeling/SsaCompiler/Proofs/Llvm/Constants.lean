import SsaCompiler.Llvm.Module
import SsaCompiler.Number.Integer

/-!
# Constants of bytes in LLVM text

A constant is written between quotes: a backslash with two hexadecimal digits is a byte, and every
other character stands for itself. A reader takes two digits behind a backslash whatever they belong
to, so what is written for one byte has to be read as this byte with anything behind it
(`unescape_escapeByte`). Whole constants are then read back byte by byte.
-/

namespace SsaCompiler.Llvm

/-- The bytes that a text between quotes stands for. -/
def unescape : List Char → List UInt8
  | [] => []
  | '\\' :: x :: y :: rest =>
    match Number.digitIn? 16 x, Number.digitIn? 16 y with
    | some high, some low => UInt8.ofNat (high * 16 + low) :: unescape rest
    | _, _ => String.utf8EncodeChar '\\' ++ unescape (x :: y :: rest)
  | c :: rest => String.utf8EncodeChar c ++ unescape rest

/-- A character of the printable part of ASCII that does not end a text between quotes. -/
def IsPlain (c : Char) : Prop :=
  ' ' ≤ c ∧ c ≤ '~' ∧ c ≠ '"'

instance (c : Char) : Decidable (IsPlain c) :=
  inferInstanceAs (Decidable (_ ∧ _))

/-- The digit of `n < 16` in an escape. -/
def upperDigit (n : Nat) : Char :=
  (Text.Quoted.hexDigit n).toUpper

theorem digitIn?_upperDigit : ∀ n < 16, Number.digitIn? 16 (upperDigit n) = some n := by
  decide

/-- A byte is written as its own character, or as an escape with its two digits. -/
theorem escapeByte_cases (b : UInt8) : (escapeByte b).all (IsPlain ·) ∧
      ((escapeByte b = [Char.ofNat b.toNat] ∧ Char.ofNat b.toNat ≠ '\\' ∧
          String.utf8EncodeChar (Char.ofNat b.toNat) = [b]) ∨
        escapeByte b = ['\\', upperDigit (b.toNat / 16), upperDigit (b.toNat % 16)]) := by
  have htable : ∀ n < 256, (escapeByte (.ofNat n)).all (IsPlain ·) ∧
      ((escapeByte (.ofNat n) = [Char.ofNat n] ∧ Char.ofNat n ≠ '\\' ∧
          String.utf8EncodeChar (Char.ofNat n) = [.ofNat n]) ∨
        escapeByte (.ofNat n) = ['\\', upperDigit (n / 16), upperDigit (n % 16)]) := by
    decide +kernel
  simpa using htable b.toNat b.toNat_lt

theorem unescape_escapeByte (b : UInt8) (rest : List Char) :
    unescape (escapeByte b ++ rest) = b :: unescape rest := by
  have hlt := b.toNat_lt
  obtain ⟨-, ⟨hb, hc, hencode⟩ | hb⟩ := escapeByte_cases b
  · rw [hb, List.singleton_append, unescape, hencode, List.singleton_append]
    rintro x y tail h -
    exact hc h
  · rw [hb, List.cons_append, List.cons_append, List.singleton_append, unescape,
      digitIn?_upperDigit _ (by omega), digitIn?_upperDigit _ (by omega)]
    dsimp only
    rw [Nat.div_add_mod', UInt8.ofNat_toNat]

theorem unescape_escapeBytes (bytes : List UInt8) : unescape (escapeBytes bytes).toList = bytes := by
  rw [escapeBytes, String.toList_ofList]
  induction bytes with
  | nil => rfl
  | cons b bytes ih => rw [List.flatMap_cons, unescape_escapeByte, ih]

theorem isPlain_of_mem_escapeBytes {bytes : List UInt8} :
    ∀ c ∈ (escapeBytes bytes).toList, IsPlain c := by
  intro c hc
  rw [escapeBytes, String.toList_ofList] at hc
  obtain ⟨b, -, hb⟩ := List.mem_flatMap.mp hc
  exact of_decide_eq_true (List.all_eq_true.mp (escapeByte_cases b).1 c hb)

/-- The lines of the constants of a module stand in its text. -/
theorem constantLines_infix (h : Header) (m : Ssa.Module) :
    m.globals.toList.map (fun g => constantLine g.name g.data.toUTF8.toList) <:+:
      moduleLines h m := by
  have hapart : ∀ lines : List String, lines <:+ setApart lines := by
    intro lines
    rw [setApart]
    split
    next hnil =>
      obtain rfl := List.isEmpty_iff.mp hnil
      exact List.nil_suffix
    next => exact List.suffix_cons ..
  unfold moduleLines
  split
  rw [List.append_assoc]
  exact ((hapart _).trans (List.suffix_append ..)).isInfix.trans (List.prefix_append ..).isInfix

/-- Bytes of any kind are written with plain characters and read back, and the line of a constant
says how many bytes are read from it. -/
theorem constants_read_back (data : List UInt8) :
    (∀ c ∈ (escapeBytes data).toList, IsPlain c) ∧
      unescape (escapeBytes data).toList = data ∧
      (∀ name, ∃ text : String,
        constantLine name data = "@" ++ name ++ " = private unnamed_addr constant [" ++
          toString (unescape text.toList).length ++ " x i8] c\"" ++ text ++ "\"" ∧
        unescape text.toList = data ++ [0] ∧ ∀ c ∈ text.toList, IsPlain c) ∧
      ∀ (h : Header) (m : Ssa.Module),
        m.globals.toList.map (fun g => constantLine g.name g.data.toUTF8.toList) <:+:
          moduleLines h m := by
  refine ⟨isPlain_of_mem_escapeBytes, unescape_escapeBytes data, fun name => ?_,
    constantLines_infix⟩
  -- the zero byte at the end is written as an escape, like any other
  have hzero : escapeBytes (data ++ [0]) = escapeBytes data ++ "\\00" := by
    rw [escapeBytes, List.flatMap_append, String.ofList_append]
    rfl
  refine ⟨escapeBytes (data ++ [0]), ?_, unescape_escapeBytes _, isPlain_of_mem_escapeBytes⟩
  rw [unescape_escapeBytes, hzero, constantLine]
  simp [String.append_assoc]

end SsaCompiler.Llvm
