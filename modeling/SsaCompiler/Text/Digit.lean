import SsaCompiler.Text.CodeRange

/-!
# Decimal digits

The decimal digits of the Unicode standard, version 15 (general category `Nd`). They may continue a
word; numbers are written with the ASCII digits only.
-/

namespace SsaCompiler.Text.Digit

/-- Ranges of decimal digits beyond ASCII from U+0660 to U+1FBF9. -/
def ranges : List (Nat × Nat) := CodeRange.table [
  "660-9 F0-9 7C0-9 966-F E6-F A66-F E6-F B66-F E6-F C66-F E6-F D66-F E6-F E50-9 D0-9 F20-9 1040-9",
  "1090-9 7E0-9 810-9 946-F D0-9 A80-9 90-9 B50-9 B0-9 C40-9 50-9 A620-9 8D0-9 900-9 D0-9 F0-9",
  "AA50-9 BF0-9 FF10-9 104A0-9 D30-9 1066-F F0-9 136-F D0-9 2F0-9 450-9 D0-9 650-9 C0-9 730-9",
  "118E0-9 950-9 C50-9 D50-9 A0-9 F50-9 6A60-9 C0-9 B50-9 D7CE-FF E140-9 2F0-9 4F0-9 950-9 FBF0-9"]

def isAscii (c : Char) : Bool :=
  '0' ≤ c && c ≤ '9'

end SsaCompiler.Text.Digit

namespace SsaCompiler.Text

/-- Whether `c` is a decimal digit of some script. -/
def isDecimalDigit (c : Char) : Bool :=
  if c.val < 128 then Digit.isAscii c else CodeRange.mem Digit.ranges c.toNat

end SsaCompiler.Text
