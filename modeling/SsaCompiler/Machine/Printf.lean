import SsaCompiler.Machine.Memory
import SsaCompiler.Text.Directive
import SsaCompiler.Text.Quoted

/-!
# Formatted output

The runtime function that prints: a format with conversions, each of which takes the next argument.
Lengths other than long make integers 32 bits wide, and an unsigned conversion never shows more bits
than the argument has.
-/

namespace SsaCompiler.Machine

inductive PrintFault where
  | noFormat
  | format (f : MemoryFault)
  | text (f : MemoryFault)
  | tooFew (source : List UInt8)
  | truncated (source : List UInt8)
  | unsupported (verb : UInt8)
  deriving DecidableEq, Repr

def PrintFault.message : PrintFault → String
  | .noFormat => "printf: missing format"
  | .format f => "printf: " ++ f.message
  | .text f => "printf %s: " ++ f.message
  | .tooFew source => "printf: too few arguments for " ++ Text.quoteBytes source
  | .truncated source => "printf: truncated conversion in " ++ Text.quoteBytes source
  | .unsupported verb => "printf: unsupported conversion %" ++ (Char.ofNat verb.toNat).toString

namespace Printf

structure Arg where
  value : Word
  type : Option Ssa.Ty

def char (b : UInt8) : Char :=
  Char.ofNat b.toNat

/-- Whether a byte belongs to the width or the precision. -/
def isSize (b : UInt8) : Bool :=
  (char b).isDigit || char b == '.'

def isLength (b : UInt8) : Bool :=
  char b == 'l' || char b == 'h' || char b == 'z'

/-- How many bits an unsigned conversion shows. -/
def shownBits (long : Bool) (t : Option Ssa.Ty) : Nat :=
  let bits := if long then 64 else 32
  match t with
  | some (.int n) => min n bits
  | _ => bits

def convert (m : Memory) (spec : List Char) (long : Bool) (verb : UInt8) (a : Arg) :
    Except PrintFault (List UInt8) :=
  match char verb with
  | 'd' | 'i' =>
    let x := if long then a.value else a.value.wrap 32
    .ok (Text.Directive.render (spec ++ ['d']) (.int x.signed))
  | 'u' =>
    .ok (Text.Directive.render (spec ++ ['d']) (.uint (a.value.low (shownBits long a.type)).toNat))
  | 'x' | 'X' =>
    .ok (Text.Directive.render (spec ++ [char verb])
      (.uint (a.value.low (shownBits long a.type)).toNat))
  | 'c' => .ok [a.value.toUInt8]
  | 's' =>
    match m.text a.value with
    | .ok bytes => .ok (Text.Directive.render (spec ++ ['s']) (.text bytes))
    | .error f => .error (.text f)
  | 'f' =>
    let spec := if spec.contains '.' then spec else spec ++ ['.', '6']
    .ok (Text.Directive.render (spec ++ ['f']) (.float a.value))
  | 'e' | 'g' => .ok (Text.Directive.render (spec ++ [char verb]) (.float a.value))
  | 'p' => .ok (Text.Directive.ascii a.value.hex.toList)
  | _ => .error (.unsupported verb)

/-- Writes what remains of a format; at most `fuel` bytes and conversions of it are looked at. -/
def expand (m : Memory) (format : List UInt8) :
    (fuel : Nat) → (rest : List UInt8) → List Arg → Except PrintFault (List UInt8)
  | 0, _, _ => .ok []
  | _ + 1, [], _ => .ok []
  | fuel + 1, b :: rest, args =>
    if char b != '%' then do
      return b :: (← expand m format fuel rest args)
    else
      let flags := rest.takeWhile fun b => Text.Directive.isFlag (char b)
      let rest := rest.dropWhile fun b => Text.Directive.isFlag (char b)
      let size := rest.takeWhile isSize
      let rest := rest.dropWhile isSize
      let lengths := rest.takeWhile isLength
      let long := lengths.any fun b => char b == 'l' || char b == 'z'
      match rest.dropWhile isLength with
      | [] => .error (.truncated format)
      | verb :: rest =>
        if char verb == '%' then do
          return verb :: (← expand m format fuel rest args)
        else
          match args with
          | [] => .error (.tooFew format)
          | a :: args => do
            let shown ← convert m ((flags ++ size).map char) long verb a
            return shown ++ (← expand m format fuel rest args)

end Printf

/-- The bytes that a format and its arguments give. -/
def printf (m : Memory) (args : List Printf.Arg) : Except PrintFault (List UInt8) :=
  match args with
  | [] => .error .noFormat
  | f :: rest =>
    match m.text f.value with
    | .error e => .error (.format e)
    | .ok format => Printf.expand m format (format.length + 1) format rest

end SsaCompiler.Machine
