import SsaCompiler.Text.Printable
import SsaCompiler.Text.Utf8

/-!
# Quoted text

Diagnostics and listings show text between quotes with escapes: a printable character stands for
itself, the quote and the backslash are escaped, the seven control characters with a letter escape
use it, and every other character is written by its number: `\x7f` below 128, `\u200b` below 65536,
`\U000e0001` above. A stray byte of an invalid encoding is written `\xff`.
-/

namespace SsaCompiler.Text.Quoted

/-- The lower-case hexadecimal digit of `n < 16`. -/
def hexDigit (n : Nat) : Char :=
  if n < 10 then Char.ofNat (n + 48) else Char.ofNat (n + 87)

/-- The last `width` hexadecimal digits of `n`. -/
def hex : (width : Nat) → (n : Nat) → List Char
  | 0, _ => []
  | width + 1, n => hex width (n / 16) ++ [hexDigit (n % 16)]

/-- The letter of the short escape of `c`, if it has one. -/
def shortEscape? (c : Char) : Option Char :=
  if c == '\x07' then some 'a'
  else if c == '\x08' then some 'b'
  else if c == '\x0c' then some 'f'
  else if c == '\n' then some 'n'
  else if c == '\r' then some 'r'
  else if c == '\t' then some 't'
  else if c == '\x0b' then some 'v'
  else none

/-- How `c` is written between quotes of the kind `quote`. -/
def char (quote : Char) (c : Char) : List Char :=
  if c == quote || c == '\\' then ['\\', c]
  else if isPrintable c then [c]
  else
    match shortEscape? c with
    | some letter => ['\\', letter]
    | none =>
      if c.val < 128 then '\\' :: 'x' :: hex 2 c.toNat
      else if c.val < 0x10000 then '\\' :: 'u' :: hex 4 c.toNat
      else '\\' :: 'U' :: hex 8 c.toNat

/-- How a piece of a byte string is written between double quotes. -/
def piece : Utf8.Piece → List Char
  | .char c => char '"' c
  | .invalid b => '\\' :: 'x' :: hex 2 b.toNat

end SsaCompiler.Text.Quoted

namespace SsaCompiler.Text

def quoteChar (c : Char) : String :=
  String.ofList ('\'' :: Quoted.char '\'' c ++ ['\''])

def quote (s : String) : String :=
  String.ofList ('"' :: s.toList.flatMap (Quoted.char '"') ++ ['"'])

def quoteBytes (bytes : List UInt8) : String :=
  String.ofList ('"' :: (Utf8.pieces bytes).flatMap Quoted.piece ++ ['"'])

end SsaCompiler.Text
