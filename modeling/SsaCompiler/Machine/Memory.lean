import Std.Data.HashMap
import SsaCompiler.Machine.Word
import SsaCompiler.Number.Binary
import SsaCompiler.Ssa.Layout

/-!
# Memory

Every object has a segment of its own. An address is the number of a segment and an offset into it,
so an access to an object that has been released is noticed, and an access beyond the end of an
object is, too, unless the offset runs over into the number of the segment. Segments are numbered
from one. The address zero belongs to none of them; neither do the addresses behind it, which the
machine does not survive.

Bytes that have never been written are zero.
-/

namespace SsaCompiler.Machine

inductive SegmentKind where
  | stack
  | heap
  | global
  deriving DecidableEq, Repr, Inhabited

def SegmentKind.name : SegmentKind → String
  | .stack => "stack"
  | .heap => "heap"
  | .global => "global"

/-- An object in memory. -/
structure Segment where
  size : Nat
  kind : SegmentKind
  live : Bool
  deriving DecidableEq, Repr, Inhabited

inductive MemoryFault where
  | nullAddress
  /-- An address in the place of segment zero, which has no object. -/
  | noObject
  | invalidAddress (addr : Word)
  | released (kind : SegmentKind) (addr : Word)
  | outOfRange (kind : SegmentKind) (offset size length : Nat)
  | unterminated (addr : Word)
  | invalidSize (size : Int)
  | notHeap (addr : Word)
  /-- Values of the type do not fit a register. -/
  | loadOf (type : Ssa.Ty)
  | storeOf (type : Ssa.Ty)
  deriving DecidableEq, Repr

def MemoryFault.message : MemoryFault → String
  | .nullAddress => "nil pointer dereference"
  | .noObject => "runtime error"
  | .invalidAddress a => "invalid address " ++ a.hex
  | .released kind a => "access to released " ++ kind.name ++ " memory at " ++ a.hex
  | .outOfRange kind offset size length =>
    kind.name ++ " access out of range: offset " ++ toString offset ++ " size " ++ toString size
      ++ " in " ++ toString length ++ "-byte object"
  | .unterminated a => "unterminated string at " ++ a.hex
  | .invalidSize n => "invalid allocation size " ++ toString n
  | .notHeap a => "free of non-heap pointer " ++ a.hex
  | .loadOf t => "load of non-scalar type " ++ t.render
  | .storeOf t => "store of non-scalar type " ++ t.render

structure Memory where
  /-- The segments; the first one has the number one. -/
  segments : Array Segment := #[]
  /-- The bytes that have been written, by address. -/
  bytes : Std.HashMap Nat UInt8 := {}
  deriving Inhabited

namespace Memory

variable (m : Memory) (addr : Word)

def offsetSpace : Nat := 1 <<< 32

def segmentOf : Nat :=
  addr.toNat / offsetSpace

def offsetOf : Nat :=
  addr.toNat % offsetSpace

def startOf (segment : Nat) : Word :=
  UInt64.ofNat (segment * offsetSpace)

def alloc (size : Int) (kind : SegmentKind) : Except MemoryFault (Word × Memory) :=
  if size < 0 || (offsetSpace : Int) ≤ size then .error (.invalidSize size)
  else
    .ok (startOf (m.segments.size + 1),
      { m with segments := m.segments.push ⟨size.toNat, kind, true⟩ })

def segment : Except MemoryFault Segment :=
  if addr == 0 then .error .nullAddress
  else
    match segmentOf addr with
    | 0 => .error .noObject
    | n + 1 =>
      match m.segments[n]? with
      | none => .error (.invalidAddress addr)
      | some s => if s.live then .ok s else .error (.released s.kind addr)

def release : Memory :=
  match segmentOf addr with
  | 0 => m
  | n + 1 => { m with segments := m.segments.modify n fun s => { s with live := false } }

/-- Frees an object on the heap; freeing the address zero does nothing. -/
def free : Except MemoryFault Memory :=
  if addr == 0 then .ok m
  else do
    let s ← m.segment addr
    if s.kind == .heap && offsetOf addr == 0 then .ok (m.release addr)
    else .error (.notHeap addr)

def access (size : Nat) : Except MemoryFault Unit := do
  let s ← m.segment addr
  if offsetOf addr + size ≤ s.size then .ok ()
  else .error (.outOfRange s.kind (offsetOf addr) size s.size)

def byte (addr : Nat) : UInt8 :=
  m.bytes.getD addr 0

/-- The number held by `n` bytes, the lowest byte first. -/
def number (m : Memory) (addr : Nat) : (n : Nat) → Nat
  | 0 => 0
  | n + 1 => (m.byte addr).toNat + 256 * number m (addr + 1) n

/-- Writes a number into `n` bytes, the lowest byte first. -/
def setNumber (m : Memory) (addr : Nat) (x : Nat) : (n : Nat) → Memory
  | 0 => m
  | n + 1 =>
    setNumber { m with bytes := m.bytes.insert addr (UInt8.ofNat (x % 256)) } (addr + 1) (x / 256) n

def setBytes (m : Memory) (addr : Nat) : List UInt8 → Memory
  | [] => m
  | b :: bs => setBytes { m with bytes := m.bytes.insert addr b } (addr + 1) bs

/-- The bytes up to the first zero, at most `n`; none if there is no zero. -/
def textFrom (m : Memory) : (n addr : Nat) → Option (List UInt8)
  | 0, _ => none
  | n + 1, addr =>
    let b := m.byte addr
    if b == 0 then some [] else (textFrom m n (addr + 1)).map (b :: ·)

/-- The text at an address, up to a zero byte within the object. -/
def text : Except MemoryFault (List UInt8) := do
  let s ← m.segment addr
  match m.textFrom (s.size - offsetOf addr) addr.toNat with
  | some bs => .ok bs
  | none => .error (.unterminated addr)

/-- How many bytes of an integer object are accessed. -/
def intWidth (size : Int) : Nat :=
  if size == 1 then 1 else if size == 2 then 2 else if size == 4 then 4 else 8

def load (t : Ssa.Ty) : Except MemoryFault Word := do
  m.access addr t.size.toNat
  match t with
  | .int bits =>
    .ok (Word.wrap bits (UInt64.ofNat (m.number addr.toNat (intWidth t.size))))
  | .float => .ok (Number.Binary64.ofSingleBits (m.number addr.toNat 4))
  | .double | .pointer _ => .ok (UInt64.ofNat (m.number addr.toNat 8))
  | _ => .error (.loadOf t)

def store (t : Ssa.Ty) (x : Word) : Except MemoryFault Memory := do
  m.access addr t.size.toNat
  match t with
  | .int _ => .ok (m.setNumber addr.toNat x.toNat (intWidth t.size))
  | .float => .ok (m.setNumber addr.toNat (Number.Binary64.singleBits x) 4)
  | .double | .pointer _ => .ok (m.setNumber addr.toNat x.toNat 8)
  | _ => .error (.storeOf t)

end Memory

end SsaCompiler.Machine
