/-!
# Reading UTF-8

Source text and program output are bytes. Bytes that form a character are read as that character;
a byte that starts no character is kept apart, so that a reader can show it (as U+FFFD or as an
escape) and go on with the next byte. An invalid sequence of `n` bytes thus yields `n` pieces.
-/

namespace SsaCompiler.Text.Utf8

/-- One unit of decoded text. -/
inductive Piece where
  | char (c : Char)
  /-- A byte that starts no correctly encoded character. -/
  | invalid (b : UInt8)
  deriving DecidableEq, Repr

/-- Whether `b` continues a multi-byte character. -/
def isContinuation (b : UInt8) : Bool :=
  0x80 ≤ b && b ≤ 0xBF

/-- The low six bits of a continuation byte. -/
def payload (b : UInt8) : Nat :=
  b.toNat % 64

/-- The multi-byte character that starts with `b`, and how many bytes of the rest it uses. -/
def lead? (b : UInt8) (rest : List UInt8) : Option (Char × Nat) :=
  match rest with
  | b₁ :: tail =>
    if 0xC2 ≤ b && b ≤ 0xDF && isContinuation b₁ then
      some (Char.ofNat (b.toNat % 32 * 64 + payload b₁), 1)
    else
      match tail with
      | b₂ :: tail₂ =>
        let low : UInt8 := if b == 0xE0 then 0xA0 else 0x80
        let high : UInt8 := if b == 0xED then 0x9F else 0xBF
        if 0xE0 ≤ b && b ≤ 0xEF && low ≤ b₁ && b₁ ≤ high && isContinuation b₂ then
          some (Char.ofNat ((b.toNat % 16 * 64 + payload b₁) * 64 + payload b₂), 2)
        else
          match tail₂ with
          | b₃ :: _ =>
            let low : UInt8 := if b == 0xF0 then 0x90 else 0x80
            let high : UInt8 := if b == 0xF4 then 0x8F else 0xBF
            if 0xF0 ≤ b && b ≤ 0xF4 && low ≤ b₁ && b₁ ≤ high && isContinuation b₂
                && isContinuation b₃ then
              some (Char.ofNat
                (((b.toNat % 8 * 64 + payload b₁) * 64 + payload b₂) * 64 + payload b₃), 3)
            else none
          | [] => none
      | [] => none
  | [] => none

/-- Splits a byte string into characters and stray bytes. -/
def pieces : List UInt8 → List Piece
  | [] => []
  | b :: rest =>
    if b < 0x80 then .char (Char.ofNat b.toNat) :: pieces rest
    else
      match lead? b rest with
      | some (c, n) => .char c :: pieces (rest.drop n)
      | none => .invalid b :: pieces rest
termination_by bytes => bytes.length
decreasing_by all_goals simp_wf; try omega

/-- The character shown for a piece: a stray byte is shown as the replacement character. -/
def Piece.shown : Piece → Char
  | .char c => c
  | .invalid _ => '�'

/-- The characters of a byte string, each stray byte being read as U+FFFD. -/
def decode (bytes : List UInt8) : List Char :=
  (pieces bytes).map Piece.shown

def isValid (bytes : List UInt8) : Bool :=
  (pieces bytes).all fun
    | .char _ => true
    | .invalid _ => false

def encode (s : String) : List UInt8 :=
  s.toUTF8.toList

end SsaCompiler.Text.Utf8
