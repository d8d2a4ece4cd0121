import SsaCompiler.Text.Utf8

/-!
# Reading encoded text

The bytes of a character are one ASCII byte or a leading byte with one to three continuation bytes.
The reader checks the ranges of the leading byte and of the first continuation byte. They leave out
the encodings that are too long, the surrogates and what lies behind the last character, so that no
character falls out of them.
-/

namespace SsaCompiler.Text.Utf8

open List

variable {b b₁ : UInt8} {v : Nat}

theorem toNat_byte {n : Nat} (h : n < 256) : (UInt8.ofNat n).toNat = n := by
  rw [UInt8.toNat_ofNat']
  omega

theorem isContinuation_of_toNat {n : Nat} (h : b.toNat = n % 64 + 128) : isContinuation b := by
  simp only [isContinuation, Bool.and_eq_true, decide_eq_true_eq, UInt8.le_iff_toNat_le, h]
  simp
  omega

theorem lead?_two (hb : b.toNat = v / 64 % 32 + 192) (hb₁ : b₁.toNat = v % 64 + 128)
    (hv : 0x80 ≤ v ∧ v ≤ 0x7FF) (rest : List UInt8) :
    lead? b (b₁ :: rest) = some (Char.ofNat v, 1) := by
  have hval : b.toNat % 32 * 64 + payload b₁ = v := by
    unfold payload
    omega
  unfold lead?
  dsimp only
  rw [if_pos, hval]
  simp only [isContinuation_of_toNat hb₁, Bool.and_true, Bool.and_eq_true, decide_eq_true_eq,
    UInt8.le_iff_toNat_le, hb, UInt8.reduceToNat]
  omega

theorem lead?_three {b₂ : UInt8} (hb : b.toNat = v / 4096 % 16 + 224)
    (hb₁ : b₁.toNat = v / 64 % 64 + 128) (hb₂ : b₂.toNat = v % 64 + 128)
    (hv : 0x800 ≤ v ∧ v ≤ 0xFFFF) (hs : v < 0xD800 ∨ 0xDFFF < v) (rest : List UInt8) :
    lead? b (b₁ :: b₂ :: rest) = some (Char.ofNat v, 2) := by
  have hval : (b.toNat % 16 * 64 + payload b₁) * 64 + payload b₂ = v := by
    unfold payload
    omega
  have hlow : (if b = 0xE0 then 0xA0 else 0x80 : UInt8) ≤ b₁ := by
    rw [UInt8.le_iff_toNat_le, hb₁]
    split <;> simp_all [← UInt8.toNat_inj] <;> omega
  have hhigh : b₁ ≤ (if b = 0xED then 0x9F else 0xBF : UInt8) := by
    rw [UInt8.le_iff_toNat_le, hb₁]
    split <;> simp_all [← UInt8.toNat_inj] <;> omega
  have hrange : 0xE0 ≤ b ∧ b ≤ 0xEF ∧ ¬ b ≤ 0xDF := by
    simp only [UInt8.le_iff_toNat_le, hb, UInt8.reduceToNat]
    omega
  unfold lead?
  simp [hrange, hlow, hhigh, isContinuation_of_toNat hb₂, hval]

theorem lead?_four {b₂ b₃ : UInt8} (hb : b.toNat = v / 262144 % 8 + 240)
    (hb₁ : b₁.toNat = v / 4096 % 64 + 128) (hb₂ : b₂.toNat = v / 64 % 64 + 128)
    (hb₃ : b₃.toNat = v % 64 + 128) (hv : 0x10000 ≤ v ∧ v ≤ 0x10FFFF) (rest : List UInt8) :
    lead? b (b₁ :: b₂ :: b₃ :: rest) = some (Char.ofNat v, 3) := by
  have hval : ((b.toNat % 8 * 64 + payload b₁) * 64 + payload b₂) * 64 + payload b₃ = v := by
    unfold payload
    omega
  have hlow : (if b = 0xF0 then 0x90 else 0x80 : UInt8) ≤ b₁ := by
    rw [UInt8.le_iff_toNat_le, hb₁]
    split <;> simp_all [← UInt8.toNat_inj] <;> omega
  have hhigh : b₁ ≤ (if b = 0xF4 then 0x8F else 0xBF : UInt8) := by
    rw [UInt8.le_iff_toNat_le, hb₁]
    split <;> simp_all [← UInt8.toNat_inj] <;> omega
  have hrange : 0xF0 ≤ b ∧ b ≤ 0xF4 ∧ ¬ b ≤ 0xDF ∧ ¬ b ≤ 0xEF := by
    simp only [UInt8.le_iff_toNat_le, hb, UInt8.reduceToNat]
    omega
  unfold lead?
  simp [hrange, hlow, hhigh, isContinuation_of_toNat hb₂, isContinuation_of_toNat hb₃, hval]

theorem pieces_lead {bytes rest : List UInt8} {c : Char} (hb : 128 ≤ b.toNat)
    (h : lead? b (bytes ++ rest) = some (c, bytes.length)) :
    pieces (b :: bytes ++ rest) = .char c :: pieces rest := by
  have hlow : ¬ b < 0x80 := by
    exact Nat.not_lt.mpr hb
  rw [cons_append, pieces, if_neg hlow, h]
  dsimp only
  rw [drop_left]

/-- The bytes of a character are read as this character. -/
theorem pieces_encodeChar (c : Char) (rest : List UInt8) :
    pieces (String.utf8EncodeChar c ++ rest) = .char c :: pieces rest := by
  have hvalid : c.val.toNat < 0xD800 ∨ 0xDFFF < c.val.toNat ∧ c.val.toNat < 0x110000 := c.valid
  have hc : Char.ofNat c.val.toNat = c := Char.ofNat_toNat c
  unfold String.utf8EncodeChar
  dsimp only
  generalize c.val.toNat = v at hvalid hc ⊢
  split
  · have hb : (UInt8.ofNat v).toNat = v := toNat_byte (by omega)
    have hlow : UInt8.ofNat v < 0x80 := by
      rw [UInt8.lt_iff_toNat_lt, hb]
      exact Nat.lt_succ_of_le ‹_›
    rw [singleton_append, pieces, if_pos hlow, hb, hc]
  split
  · rw [← hc]
    refine pieces_lead ?_ (lead?_two (toNat_byte ?_) (toNat_byte ?_) ?_ rest)
    · rw [toNat_byte] <;> omega
    all_goals omega
  split
  · rw [← hc]
    refine pieces_lead ?_ (lead?_three (toNat_byte ?_) (toNat_byte ?_) (toNat_byte ?_) ?_ ?_ rest)
    · rw [toNat_byte] <;> omega
    all_goals omega
  · rw [← hc]
    refine pieces_lead ?_
      (lead?_four (toNat_byte ?_) (toNat_byte ?_) (toNat_byte ?_) (toNat_byte ?_) ?_ rest)
    · rw [toNat_byte] <;> omega
    all_goals omega

theorem toList_loop (bytes : ByteArray) (i : Nat) (front : List UInt8) :
    ByteArray.toList.loop bytes i front = front.reverse ++ bytes.data.toList.drop i := by
  fun_induction ByteArray.toList.loop bytes i front with
  | case1 i front h ih =>
    have hi : i < bytes.data.toList.length := by simpa using h
    have hget : bytes.get! i = bytes.data.toList[i] := getElem!_pos bytes.data i h
    rw [ih, drop_eq_getElem_cons hi, hget]
    simp
  | case2 i front h =>
    have hi : bytes.data.toList.length ≤ i := by simpa using h
    rw [drop_eq_nil_of_le hi, append_nil]

theorem decode_encode (text : List Char) : decode (encode (String.ofList text)) = text := by
  have hbytes : encode (String.ofList text) = text.flatMap String.utf8EncodeChar := by
    rw [encode, String.toUTF8, String.toByteArray_ofList, ByteArray.toList, toList_loop]
    exact toList_data_toByteArray
  rw [hbytes, decode]
  clear hbytes
  induction text with
  | nil => simp [pieces]
  | cons c text ih => rw [flatMap_cons, pieces_encodeChar, map_cons, ih, Piece.shown]

end SsaCompiler.Text.Utf8
