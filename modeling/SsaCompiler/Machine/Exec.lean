import SsaCompiler.Machine.State

/-!
# Single operations

Reading operands and computing values. Calls of functions with a body are not handled here: they
change the stack of frames.
-/

namespace SsaCompiler.Machine

open Ssa (ValueRef)

/-! ## Operands -/

/-- The address of a constant text, which is put into memory when it is first used. -/
def World.global (w : World) (module place : Nat) (g : Ssa.Global) : Word × World :=
  match w.globals[(module, place)]? with
  | some a => (a, w)
  | none =>
    let data := g.data.toUTF8.toList
    match w.memory.alloc (data.length + 1) .global with
    | .ok (a, memory) =>
      (a, { w with memory := memory.setBytes a.toNat data,
                   globals := w.globals.insert (module, place) a })
    | .error _ => (0, w)

def World.read (w : World) (m : Ssa.Module) (module : Nat) (regs : Registers) (v : ValueRef) :
    Word × World :=
  let x := m.value v
  match x.op with
  | .constInt => ((Word.ofInt x.auxInt).wrap x.type.bits, w)
  | .constFloat =>
    (if x.type.bits == 32 then Number.Binary64.toSingle x.auxFloat else x.auxFloat, w)
  | .constNull => (0, w)
  | .global =>
    match x.aux with
    | .global g => w.global module g (m.globals.getD g default)
    | _ => (0, w)
  | _ => (regs.getD v 0, w)

/-- What a list of values holds. Missing values hold zero. -/
def World.readAll (m : Ssa.Module) (module : Nat) (regs : Registers) :
    World → List (Option ValueRef) → List Word × World
  | w, [] => ([], w)
  | w, v :: vs =>
    let (x, w) := v.elim (0, w) (w.read m module regs)
    let (xs, w) := readAll m module regs w vs
    (x :: xs, w)

/-! ## Arithmetic -/

/-- A floating-point result, rounded to the width of its type. -/
def ofFloat (t : Ssa.Ty) (f : Float) : Word :=
  if t.bits == 32 then Number.Binary64.toSingle f.toBits else f.toBits

def compareInt (p : Ssa.IntPredicate) (x y : Word) : Bool :=
  match p with
  | .eq => x == y
  | .ne => x != y
  | .slt => x.toInt64 < y.toInt64
  | .sle => x.toInt64 ≤ y.toInt64
  | .sgt => y.toInt64 < x.toInt64
  | .sge => y.toInt64 ≤ x.toInt64

def compareFloat (p : Ssa.FloatPredicate) (x y : Float) : Bool :=
  match p with
  | .oeq => x == y
  | .one => x < y || y < x
  | .olt => x < y
  | .ole => x ≤ y
  | .ogt => y < x
  | .oge => y ≤ x

/-- An operation that only depends on its arguments. `first` is the type of the first argument. -/
def compute (v : Ssa.Value) (first : Ssa.Ty) (args : List Word) : Except Fault Word :=
  let bits := v.type.bits
  let a := args.getD 0 0
  let b := args.getD 1 0
  let x := Float.ofBits a
  let y := Float.ofBits b
  match v.op with
  | .elemPtr =>
    let size := (v.type.elem?.getD .void).size
    .ok (a + Word.ofInt (b.signed * size))
  | .fieldPtr => .ok (a + Word.ofInt ((first.elem?.getD .void).offset v.auxInt.toNat))
  | .trunc | .sext => .ok (a.wrap bits)
  | .zext => .ok (a.low first.bits)
  | .fpToSi =>
    if Number.Binary64.isFinite a then
      .ok ((Word.ofInt (Number.Binary64.truncate a)).wrap bits)
    else .error (.floatRange a)
  | .siToFp =>
    let r := Number.Binary64.ofInt a.signed
    .ok (if bits == 32 then Number.Binary64.toSingle r else r)
  | .fpTrunc | .fpExt => .ok (if bits == 32 then Number.Binary64.toSingle a else a)
  | .add => .ok ((a + b).wrap bits)
  | .sub => .ok ((a - b).wrap bits)
  | .mul => .ok ((a * b).wrap bits)
  | .div => if b == 0 then .error .divideByZero else .ok ((a.quotient b).wrap bits)
  | .rem => if b == 0 then .error .divideByZero else .ok ((a.remainder b).wrap bits)
  | .neg => .ok ((0 - a).wrap bits)
  | .not => .ok ((~~~a).wrap bits)
  | .and => .ok (a &&& b)
  | .or => .ok (a ||| b)
  | .fadd => .ok (ofFloat v.type (x + y))
  | .fsub => .ok (ofFloat v.type (x - y))
  | .fmul => .ok (ofFloat v.type (x * y))
  | .fdiv => .ok (ofFloat v.type (x / y))
  | .frem =>
    let r := Number.Binary64.remainder a b
    .ok (if bits == 32 then Number.Binary64.toSingle r else r)
  | .fneg => .ok (ofFloat v.type (-x))
  | .icmp =>
    .ok (Word.ofBool ((Ssa.IntPredicate.ofCode? v.auxInt).any fun p => compareInt p a b))
  | .fcmp =>
    .ok (Word.ofBool ((Ssa.FloatPredicate.ofCode? v.auxInt).any fun p => compareFloat p x y))
  | op => .error (.unsupported op)

/-! ## Runtime functions -/

/-- What an operation does to the world beside computing a value. -/
inductive Effect where
  | value (x : Word) (w : World)
  /-- A new object on the stack is the value. -/
  | slot (addr : Word) (w : World)
  | none (w : World)
  | exit (code : Int) (w : World)
  | fault (f : Fault) (w : World)

/-- A function that no module defines: one of the runtime functions. -/
def external (name : String) (args : List Printf.Arg) (w : World) : Effect :=
  match name, args with
  | "printf", _ =>
    match printf w.memory args with
    | .ok bytes => .value (UInt64.ofNat bytes.length) { w with output := bytes :: w.output }
    | .error f => .fault (.print f) w
  | "exit", [a] => .exit (a.value.wrap 32).signed w
  | "malloc", [a] =>
    match w.memory.alloc a.value.signed .heap with
    | .ok (addr, memory) => .value addr { w with memory := memory }
    | .error f => .fault (.memory f) w
  | "free", [a] =>
    match w.memory.free a.value with
    | .ok memory => .value 0 { w with memory := memory }
    | .error f => .fault (.memory f) w
  | "exit", _ | "malloc", _ | "free", _ => .fault (.runtimeArity name args.length) w
  | _, _ => .fault (.undefined name) w

/-! ## Values -/

def exec (m : Ssa.Module) (module : Nat) (regs : Registers) (w : World) (v : Ssa.Value) : Effect :=
  match v.op with
  | .alloca =>
    let size := (v.type.elem?.getD .void).size
    let (count, w) :=
      match v.args with
      | [] => ((1 : Int), w)
      | a :: _ =>
        let (x, w) := a.elim (0, w) (w.read m module regs)
        (x.signed, w)
    if count < 0 then .fault (.negativeCount count) w
    else
      match w.memory.alloc (Number.wrap64 (count * size)) .stack with
      | .ok (addr, memory) => .slot addr { w with memory := memory }
      | .error f => .fault (.memory f) w
  | .malloc =>
    match w.memory.alloc v.auxInt .heap with
    | .ok (addr, memory) => .value addr { w with memory := memory }
    | .error f => .fault (.memory f) w
  | .select =>
    let (c, w) := (v.args.getD 0 none).elim (0, w) (w.read m module regs)
    let (x, w) := (v.args.getD (if c != 0 then 1 else 2) none).elim (0, w) (w.read m module regs)
    .value x w
  | _ =>
    let (args, w) := World.readAll m module regs w v.args
    match v.op with
    | .free =>
      match w.memory.free (args.getD 0 0) with
      | .ok memory => .none { w with memory := memory }
      | .error f => .fault (.memory f) w
    | .load =>
      match w.memory.load (args.getD 0 0) v.type with
      | .ok x => .value x w
      | .error f => .fault (.memory f) w
    | .store =>
      let t := ((v.args.getD 1 none).map m.typeOf).getD .void
      match w.memory.store (args.getD 0 0) t (args.getD 1 0) with
      | .ok memory => .none { w with memory := memory }
      | .error f => .fault (.memory f) w
    | _ =>
      let first := ((v.args.getD 0 none).map m.typeOf).getD .void
      match compute v first args with
      | .ok x => .value x w
      | .error f => .fault f w

end SsaCompiler.Machine
