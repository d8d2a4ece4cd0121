import SsaCompiler.Proofs.Lowering.Stage

/-!
# Stages of sound programs

The lowering of a sound expression, statement or list of statements lets all blocks wait that wait in
front of it, and makes as many slots as the program has places. The ways through a conditional
statement meet in a block behind it: from the first way on that gets there, that block waits too.
-/

namespace SsaCompiler.Lowering

open Primitive
open Ssa (ValueRef BlockRef FuncRef Value Module)
open Core (Setting ExprTy Var)

variable {env : Env} {s t u : LoweringState} {f : FuncRef} {e b c : BlockRef}
  {r v w x y z : ValueRef} {p q : Primitive} {P : List BlockRef} {fs : List MethodFunc}
  {st : Setting} {dv : Defaults} {cx cy cz : Lowering ValueRef} {nx ny nz bits : Nat}
  {op : BinaryOp} {ty : ExprTy} {rest : Core.Otherwise} {params : List ValueRef}

/-! ## Expressions -/

instance : Known (1 ≤ 64) :=
  ⟨by decide⟩

theorem lowers_as {source target : ExprTy} (hs : source.type.isPlain)
    (ht : target.type.isPlain) (hx : Lowers fs cx nx) :
    Lowers fs ((Operand.mk source cx).as target) nx := by
  obtain ⟨p, hp, hplain⟩ := Ty.exists_of_isPlain hs
  obtain ⟨q, hq, hqlain⟩ := Ty.exists_of_isPlain ht
  have : Known p.isPlain := ⟨hplain⟩
  have : Known q.isPlain := ⟨hqlain⟩
  rw [as_eq hp hq]
  exact .of (by omega)

theorem steps_lastWay (hx : Lowers fs cx nx) (env : Env) (P : List BlockRef) (slot : ValueRef)
    (b after : BlockRef) :
    Steps env fs (after :: b :: P) (lastWay cx slot b after) (fun _ => P) nx := by
  unfold lastWay
  exact .mono inferInstance (by omega)

theorem lowers_logical (hx : Lowers fs cx nx) (hy : Lowers fs cy ny) :
    Lowers fs (logical op cx cy) (1 + nx + ny) := by
  have := steps_lastWay hy
  unfold logical
  exact .of (by omega)

/-- The machine type of a plain type is known before it is looked up. -/
theorem runs_exprType {α : Type} {g : Ssa.Ty → Lowering α} {a : α} (hp : ty.primitive? = some p)
    (hplain : p.isPlain) :
    Runs (lift (·.exprType ty) >>= g) env s a t ↔ Runs (g (.int p.bits)) env s a t := by
  have hty : env.exprType ty = .ok (.int p.bits) := by
    rw [← machineType_of_isPlain hplain]
    exact Ty.machineType_of_primitive? env hp
  simp [runs_lift, hty, and_assoc]

theorem lowers_selection {ox oy : Operand} (hp : ty.primitive? = some p) (hplain : p.isPlain)
    (hz : Lowers fs cz nz) (hx : Lowers fs (ox.as ty) nx) (hy : Lowers fs (oy.as ty) ny) :
    Lowers fs (selection ty cz ox oy) (1 + nz + nx + ny) := by
  have : Known (p.bits ≤ 64) := ⟨p.bits_le⟩
  have := steps_lastWay hy
  exact fun _ _ => .mono (.of_runs inferInstance fun _ _ _ hr => (runs_exprType hp hplain).mp hr)
    (by omega)

/-- The operation on integers that an operator of arithmetic stands for. -/
def intOp : BinaryOp → Ssa.Op
  | .sub => .sub
  | .mul => .mul
  | .div => .div
  | .mod => .rem
  | _ => .add

theorem arithOps?_of_isArithmetic (h : Core.isArithmetic op) :
    ∃ o, arithOps? op = some (intOp op, o) := by
  cases op <;> first | exact ⟨_, rfl⟩ | exact absurd h (by decide)

instance {op : BinaryOp} : Appends (intOp op) :=
  ⟨by cases op <;> exact ⟨by decide, by decide⟩⟩

/-- Two operands, each followed by its conversion. -/
def converting {α : Type} (p q : Primitive) (cx cy : Lowering ValueRef)
    (g : ValueRef → ValueRef → Lowering α) : Lowering α := do
  let v ← castPrimitive (← cx) p (p.promote q)
  let w ← castPrimitive (← cy) q (p.promote q)
  g v w

theorem arith_eq (hop : Core.isArithmetic op) (hp : p.isPlain)
    (hq : q.isPlain) : arith op p q cx cy =
      converting p q cx cy fun v w => build (.binary (intOp op) v w) := by
  obtain ⟨o, ho⟩ := arithOps?_of_isArithmetic hop
  simp [arith, promoted, converting, ho,
    isFloat_of_isPlain (isPlain_promote hp hq)]

theorem compare_eq (hp : p.isPlain) (hq : q.isPlain) : compare op p q cx cy =
      converting p q cx cy fun v w => build (.icmp (intPredicate op) v w) := by
  simp [compare, promoted, converting,
    isFloat_of_isPlain (isPlain_promote hp hq)]

theorem same_eq {tx : ExprTy} (hx : tx.primitive? = some p) (hy : ty.primitive? = some q) :
    same op ⟨tx, cx⟩ ⟨ty, cy⟩ =
      (do let v ← cx; let w ← cy; build (.icmp (intPredicate op) v w)) := by
  simp [same, Core.ExprTy.isNull_of_primitive? hx, Core.ExprTy.isNull_of_primitive? hy]

theorem lowers_converting {g : ValueRef → ValueRef → Lowering ValueRef} (hp : p.isPlain)
    (hq : q.isPlain) (hx : Lowers fs cx nx) (hy : Lowers fs cy ny)
    [∀ env P v w, Steps env fs P (g v w) (fun _ => P) 0] :
    Lowers fs (converting p q cx cy g) (nx + ny) := by
  have : Known p.isPlain := ⟨hp⟩
  have : Known q.isPlain := ⟨hq⟩
  have : Known (p.promote q).isPlain := ⟨isPlain_promote hp hq⟩
  unfold converting
  exact .of (by omega)

/-- Every method that can be called has its function. -/
def Complete (c : Setting) (fs : List MethodFunc) : Prop :=
  ∀ g, c.known g → ∃ m, fs.find? (fun m => m.method.same g) = some m

theorem runs_function {owner : Owner} {key : String} {g : MethodDef} {m : MethodFunc} {i : FuncRef}
    (hm : s.functions.find? (fun m => m.method.same g) = some m) :
    Runs (function owner key g) env s i t ↔ i = m.func ∧ t = s := by
  simp only [function, runs_bind, runs_get]
  constructor
  · rintro ⟨w, u, ⟨hw, hu⟩, h⟩
    rw [hw, hu, hm] at h
    exact runs_pure.mp h
  · rintro ⟨rfl, rfl⟩
    refine ⟨_, _, ⟨rfl, rfl⟩, ?_⟩
    rw [hm]
    exact runs_pure.mpr ⟨rfl, rfl⟩

theorem lowers_function (owner : Owner) (key : String) {g : MethodDef} {m : MethodFunc}
    (hm : fs.find? (fun m => m.method.same g) = some m) : Lowers fs (function owner key g) 0 :=
  fun _ _ => .still fun _ _ _ hs hr => ((runs_function (hs ▸ hm)).mp hr).2

mutual

theorem lowers_expr (dv : Defaults) (hfs : Complete st fs) : ∀ {x : Core.Expr}, x.Sound st →
    Lowers fs (expr dv x) x.places
  | .int p i, _ => by
    unfold expr Core.Expr.places
    exact .of (by omega)
  | .var v, _ => by
    unfold expr Core.Expr.places readVar
    exact .of (by omega)
  | .step v p up after, _ => by
    unfold expr Core.Expr.places step
    exact .of (by omega)
  | .call g args, hx => by
    obtain ⟨m, hm⟩ := hfs g.method hx.1.1
    have := lowers_function g.owner g.key hm
    have := lowers_args dv hfs hx.2.2.2
    unfold expr Core.Expr.places
    exact .of (by omega)
  | .cast p q x, hx => by
    have : Known p.isPlain := ⟨hx.1⟩
    have : Known q.isPlain := ⟨hx.2.1⟩
    have := lowers_expr dv hfs hx.2.2.2
    unfold expr Core.Expr.places
    exact .of (by omega)
  | .neg p x, hx => by
    have := lowers_expr dv hfs hx.2.2.2
    unfold expr Core.Expr.places
    simp only [isFloat_of_isPlain hx.1, Bool.false_eq_true, if_false]
    exact .of (by omega)
  | .not x, hx => by
    have := lowers_expr dv hfs hx.2
    unfold expr Core.Expr.places
    exact .of (by omega)
  | .logical op x y, hx => by
    exact lowers_logical (lowers_expr dv hfs hx.2.2.1) (lowers_expr dv hfs hx.2.2.2)
  | .same op x y, hx => by
    have := lowers_expr dv hfs hx.2.2.1
    have := lowers_expr dv hfs hx.2.2.2
    unfold expr Core.Expr.places
    rw [same_eq hx.1 hx.2.1]
    exact .of (by omega)
  | .compare op p q x y, hx => by
    unfold expr Core.Expr.places
    rw [compare_eq hx.1 hx.2.1]
    exact lowers_converting hx.1 hx.2.1 (lowers_expr dv hfs hx.2.2.2.2.1)
      (lowers_expr dv hfs hx.2.2.2.2.2)
  | .arith op p q x y, hx => by
    obtain ⟨hop, hp, hq, -, -, -, -, hx, hy⟩ := hx
    unfold expr Core.Expr.places
    rw [arith_eq hop hp hq]
    exact lowers_converting hp hq (lowers_expr dv hfs hx) (lowers_expr dv hfs hy)
  | .selection ty z x y, hx => by
    obtain ⟨hty, -, hxt, hyt, hz, hx, hy⟩ := hx
    obtain ⟨p, hp, hplain⟩ := Ty.exists_of_isPlain hty
    exact lowers_selection hp hplain (lowers_expr dv hfs hz) (lowers_as hxt hty (lowers_expr dv hfs hx))
      (lowers_as hyt hty (lowers_expr dv hfs hy))
  | .text _, hx | .null, hx | .float _ _, hx | .field _ _, hx | .println _, hx | .newZero _, hx
  | .newCell _ _, hx | .newObject _ _ _, hx | .malloc _, hx | .sizeof _, hx | .tuple _, hx
  | .refTo _ _, hx | .deref _ _, hx | .index _ _ _ _, hx | .arrayLiteral _ _, hx
  | .arrayAlloc _ _, hx => by simp [Core.Expr.Sound] at hx

theorem lowers_args (dv : Defaults) (hfs : Complete st fs) : ∀ {xs : List Core.Expr} {ts : List Ty},
    Core.SoundArgs st xs ts → Lowers fs (arguments (operands dv xs) ts) (Core.placesOf xs)
  | [], [], _ => by
    unfold operands arguments Core.placesOf
    exact .of (by omega)
  | x :: xs, ty :: ts, hx => by
    have hty : (ExprTy.val ty).type.isPlain := hx.2.1
    have := lowers_as hx.1 hty (lowers_expr dv hfs hx.2.2.1)
    have := lowers_args dv hfs hx.2.2.2
    unfold operands arguments Core.placesOf
    exact .of (by omega)
  | [], _ :: _, hx | _ :: _, [], hx => by simp [Core.SoundArgs] at hx

end

/-! ## Variables with a slot -/

/-- A variable has been bound to a slot that holds a value. If it has no initial value, the value is a
zero that was made behind the slot. -/
inductive BindShape (f : FuncRef) (e : BlockRef) (v : Var) (bits : Nat) (zeroed : Bool)
    (b : BlockRef) (s : LoweringState) (x : ValueRef) (t : LoweringState) : Prop where
  | intro {s₁ s₂ s₃ : LoweringState} {slot m : ValueRef}
      (hslot : Slotted f e b s bits slot s₁)
      (hzero : if zeroed then Consted f e b s₁ (.int bits) 0 x s₂ else s₂ = s₁)
      (hstore : Emitted f e b s₂
        { op := .store, type := .void, args := [some slot, some x] } m s₃)
      (hbind : Adds f e b s₃ b t 0) (module : t.module = s₃.module)
      (bound : ∀ id, t.storage.lookup id =
        if id = v.id then some ⟨slot, false, none⟩ else s.storage.lookup id)

theorem BindShape.adds {v : Var} {zeroed : Bool} (h : BindShape f e v bits zeroed b s x t) :
    Adds f e b s b t 1 := by
  obtain ⟨g₁, g₂, g₃, g₄, -, -⟩ := h
  cases zeroed with
  | true => exact ((g₁.adds.trans (Consted.adds (by simpa using g₂))).trans g₃.adds).trans g₄
  | false =>
    subst g₂
    exact (g₁.adds.trans g₃.adds).trans g₄

theorem Slotted.unused (h : Slotted f e b s bits r t) (hs : Stands f e b s) {id : Nat} {y : Storage}
    (hy : s.storage.lookup id = some y) : y.addr ≠ r :=
  h.ref ▸ Nat.ne_of_lt (Module.lt_size_of_isIntSlot (hs.stored id y hy).2)

theorem storage_emit {x : Value} (hr : Runs (build (.emit x)) env s r t) : t.storage = s.storage := by
  obtain ⟨_, -, -, -, rfl⟩ := runs_emit.mp hr
  rfl

/-- The last steps of a binding: the store into the slot, and the entry for the variable. -/
theorem Stands.bindSlot {v : Var} {zeroed : Bool} {slot : ValueRef} {u₁ u₂ : LoweringState}
    {y : Unit} (h : Stands f e b s) (hslot : Slotted f e b s bits slot u)
    (hzero : if zeroed then Consted f e b u (.int bits) 0 x u₁ else u₁ = u)
    (hstorage : u₁.storage = s.storage) (hstore : Runs (build (.store x slot)) env u₁ y u₂)
    (hbind : Runs (Lowering.bind v ⟨slot, false, none⟩) env u₂ y t) :
    BindShape f e v bits zeroed b s x t := by
  obtain ⟨m, hstore⟩ := runs_store.mp hstore
  have a : Adds f e b u b u₁ 0 := by
    cases zeroed with
    | true => exact Consted.adds (by simpa using hzero)
    | false =>
      rw [hzero]
      exact .refl hslot.adds.stands
  have g := a.stands.emitted hstore (by simp) (by simp)
  have hsame : u₂.storage = s.storage := (storage_emit hstore).trans hstorage
  have hs : u₂.module.isIntSlot slot := g.adds.grows.isIntSlot (a.grows.isIntSlot hslot.slot)
  obtain ⟨g', hm⟩ := g.adds.stands.bind hbind rfl hs fun id y hy =>
    hslot.unused h (hsame ▸ hy)
  obtain ⟨-, rfl⟩ := runs_bindVar.mp hbind
  refine .intro hslot hzero g g' hm fun id => ?_
  rw [lookup_cons_eq, hsame]

theorem storage_alloca {ty : Ssa.Ty} {name : String}
    (hr : Runs (build (.alloca ty name)) env s r t) : t.storage = s.storage := by
  obtain ⟨_, -, -, rfl⟩ := runs_alloca.mp hr
  rfl

theorem Stands.bindDeclared {v : Var} {y : Unit} (h : Stands f e b s) (hv : v.Sound st)
    (hr : Runs (bindDeclared v) env s y t) :
    ∃ x, BindShape f e v (st.type v.id).bits true b s x t := by
  have hplain := hv.isPlain_type
  obtain ⟨sc, hsc, hdims, hdepth, hname, hp⟩ := Ty.scalar_of_primitive? hv.2
  simp only [Lowering.bindDeclared] at hr
  rw [hsc] at hr
  have hty : env.machineType (.scalar sc) = .ok (.int (st.type v.id).bits) := by
    rw [← machineType_of_isPlain hplain]
    exact Ty.scalar_machineType env hdims hdepth hname hp
  have harray : sc.isArray = false := by simp [Scalar.isArray, hdims]
  simp only [harray, Bool.false_eq_true, if_false, runs_bind, runs_lift, hty] at hr
  obtain ⟨_, u, ⟨hok, hu⟩, slot, s₁, h₁, z, s₂, h₂, _, s₃, h₃, h₄⟩ := hr
  cases hok
  rw [hu] at h₁
  have g₁ := h.slotted h₁ (bits_le _)
  have g₂ := g₁.adds.stands.consted h₂
  have hstorage : s₂.storage = s.storage := by
    obtain ⟨-, rfl⟩ := runs_constInt.mp h₂
    show s₁.storage = _
    exact storage_alloca h₁
  exact ⟨z, h.bindSlot g₁ (by simpa using g₂) hstorage h₃ h₄⟩

theorem isDirect_of_sound {v : Var} (hv : v.Sound st) : env.isDirect v = false := by
  have hp := hv.1
  simp only [Var.isPlain, Bool.and_eq_true, Bool.not_eq_true'] at hp
  simp only [Env.isDirect, hp.1.1.1.2, Ty.isArray_of_primitive? hv.2,
    Ty.isTuple_of_primitive? hv.2, Ty.classOf?_of_primitive? env hv.2]
  simp

theorem Stands.bindValue {v : Var} {y : Unit} (h : Stands f e b s) (hv : v.Sound st)
    (hr : Runs (bindValue v x none) env s y t) :
    BindShape f e v (st.type v.id).bits false b s x t := by
  have hplain := hv.isPlain_type
  have hty : env.exprType v.type = .ok (.int (st.type v.id).bits) := by
    rw [← machineType_of_isPlain hplain]
    exact Ty.machineType_of_primitive? env hv.2
  simp only [Lowering.bindValue, runs_bind, runs_read] at hr
  obtain ⟨_, _, ⟨rfl, rfl⟩, hr⟩ := hr
  simp only [isDirect_of_sound hv, Bool.false_eq_true, if_false, runs_bind, runs_lift, hty] at hr
  obtain ⟨_, _, ⟨hok, rfl⟩, slot, s₁, h₁, _, s₂, h₂, h₃⟩ := hr
  cases hok
  have g₁ := h.slotted h₁ (bits_le _)
  exact h.bindSlot g₁ (by simp) (storage_alloca h₁) h₂ h₃

theorem bindParam_eq {v : Var} (hv : v.Sound st) :
    bindParam params v = bindValue v (params.getD v.index.toNat 0) none := by
  have hp := hv.1
  simp only [Var.isPlain, Bool.and_eq_true, List.isEmpty_iff, Option.isNone_iff_eq_none] at hp
  simp [bindParam, hp.1.2, hp.2, loadPath]

theorem lowers_bindValue (fs : List MethodFunc) {v : Var} (hv : v.Sound st) (x : ValueRef) :
    Lowers fs (bindValue v x none) 1 := fun _ _ =>
  .of_adds fun _ _ _ _ _ _ h hr => (h.bindValue hv hr).adds

/-! ## Simple statements -/

theorem bindLocal_eq {v : Var} {init : Core.Expr} (hv : v.Sound st) :
    bindLocal dv v init = (do bindValue v (← (operand dv init).as v.type) none) := by
  have hp := hv.1
  simp only [Var.isPlain, Bool.and_eq_true, Bool.or_eq_true, beq_iff_eq] at hp
  unfold bindLocal
  rcases hp.1.1.2 with ha | ha <;> rw [ha] <;> rfl

theorem assign_eq {v : Var} {o : Operand} (hv : v.Sound st) : assign v o = (do
    let s ← storageOf v
    let y ← o.as v.type
    build (.store y s.addr)) := by
  have hp := hv.1
  simp only [Var.isPlain, Bool.and_eq_true, Bool.not_eq_true'] at hp
  simp [assign, hp.1.1.1.2]

theorem members?_of_primitive? {ty : Ty} (h : ty.primitive? = some p) : ty.members? = none := by
  obtain ⟨sc, hs, -, -, -, -⟩ := Ty.scalar_of_primitive? h
  cases ty <;> simp_all [Ty.scalar?, Ty.members?]

theorem ret_eq {x : Core.Expr} {ty : Ty} (hty : ty.isPlain) :
    ret dv x ty = (do build (.ret (some (← (operand dv x).as (.val ty))))) := by
  obtain ⟨p, hp, -⟩ := Ty.exists_of_isPlain hty
  simp [ret, members?_of_primitive? hp]

theorem Var.Sound.type_isPlain {v : Var} (hv : v.Sound st) : v.type.type.isPlain := by
  have hp := hv.1
  simp only [Var.isPlain, Bool.and_eq_true] at hp
  exact hp.1.1.1.1

/-! ## Ways that part and meet -/

variable {after : Option BlockRef} {body : Lowering Unit} {nb : Nat}

/-- Behind a way through a conditional statement, the block where the ways meet waits if it is
reached. -/
instance steps_merge {R : List BlockRef} : Steps env fs (R ++ (after.toList ++ P)) (merge after)
    (fun r => R ++ (r.toList ++ P)) 0 := by
  refine .next (k := 0) (j := 0) fun ended => ?_
  split
  · exact .pure rfl
  · cases after with
    | some b =>
      simp only [pure_bind]
      exact .next (k := 0) (j := 0) fun _ => .pure rfl
    | none =>
      refine .next (k := 0) (j := 0) fun b => .next (k := 0) (j := 0) fun _ => ?_
      exact (Steps.pure rfl).perm List.perm_middle.symm

instance : Steps env fs (after.toList ++ P) (merge after) (fun r => r.toList ++ P) 0 :=
  steps_merge (R := [])

/-- The block where the ways of a conditional statement meet, if there is one yet, and the block of the
ways that follow the first one. -/
def otherWay (after : Option BlockRef) (hasRest : Bool) : Lowering (Option BlockRef × BlockRef) :=
  if hasRest then do
    let no ← newBlock "if.else"
    return (after, no)
  else
    match after with
    | some b => return (some b, b)
    | none => do
      let b ← newBlock "if.end"
      return (some b, b)

theorem branch_eq {hasRest : Bool} : branch after cz body hasRest = (do
    let yes ← newBlock "if.then"
    let r ← otherWay after hasRest
    let c ← cz
    build (.condBr c yes r.2)
    build (.setInsertPoint yes)
    body
    let after' ← merge r.1
    return (after', r.2)) := by
  unfold branch otherWay
  cases hasRest <;> cases after <;> simp

/-- If ways follow, their block waits. -/
def restBlock (hasRest : Bool) (no : BlockRef) : List BlockRef :=
  if hasRest then [no] else []

instance {yes : BlockRef} {hasRest : Bool} :
    Steps env fs (yes :: (after.toList ++ P)) (otherWay after hasRest)
      (fun r => restBlock hasRest r.2 ++ (yes :: (r.1.toList ++ P))) 0 := by
  cases hasRest with
  | true => exact .next (k := 0) (j := 0) fun no => .pure rfl
  | false =>
    cases after with
    | some b => exact .pure rfl
    | none => exact .next (k := 0) (j := 0) fun b => (Steps.pure rfl).perm (.swap ..)

/-- Behind the first way of a conditional statement, the block of the other ways waits if there are
any, and so does the block where the ways meet. -/
theorem steps_branch (hz : Lowers fs cz nz) (hb : Lowers fs body nb) (env : Env)
    (after : Option BlockRef) (hasRest : Bool) (P : List BlockRef) :
    Steps env fs (after.toList ++ P) (branch after cz body hasRest)
      (fun r => restBlock hasRest r.2 ++ (r.1.toList ++ P)) (nz + nb) := by
  rw [branch_eq]
  refine .mono (.next fun yes => .next fun r => .next fun c => .next fun _ => .next fun _ => .next
    fun _ => .next fun after' => .pure rfl) ?_
  omega

theorem runs_merge_some {r : Option BlockRef} (hr : Runs (merge (some b)) env s r t) :
    r = some b := by
  obtain ⟨ended, u, -, hr⟩ := runs_bind.mp hr
  split at hr
  · exact (runs_pure.mp hr).1
  · simp only [pure_bind] at hr
    obtain ⟨-, u', -, hr⟩ := runs_bind.mp hr
    exact (runs_pure.mp hr).1

/-- The block where the ways meet stays the same from the first way on that gets there. -/
theorem runs_branch_some {hasRest : Bool} {r : Option BlockRef × BlockRef}
    (hr : Runs (branch (some b) cz body hasRest) env s r t) : r.1 = some b := by
  rw [branch_eq] at hr
  simp only [runs_bind, runs_pure] at hr
  obtain ⟨yes, _, -, r', _, hr', c, _, -, _, _, -, _, _, -, _, _, -, after', _, hm, rfl, -⟩ := hr
  have hfst : r'.1 = some b := by
    cases hasRest with
    | true =>
      obtain ⟨no, _, -, hr'⟩ := runs_bind.mp hr'
      rw [(runs_pure.mp hr').1]
    | false => rw [(runs_pure.mp hr').1]
  rw [hfst] at hm
  exact runs_merge_some hm

theorem runs_otherwise_some {r : Option BlockRef} : ∀ {x : Core.Otherwise}
    {no : BlockRef} {s : LoweringState}, Runs (otherwise dv (some b) no x) env s r t → r = some b
  | .none, _, _, hr => by
    exact (runs_pure.mp hr).1
  | .elseIf _ _ _, _, _, hr => by
    obtain ⟨_, _, -, hr⟩ := runs_bind.mp hr
    obtain ⟨⟨mid, no⟩, u, hb, hr⟩ := runs_bind.mp hr
    obtain rfl : mid = some b := runs_branch_some hb
    exact runs_otherwise_some hr
  | .final _, _, _, hr => by
    obtain ⟨_, _, -, hr⟩ := runs_bind.mp hr
    obtain ⟨_, _, -, hr⟩ := runs_bind.mp hr
    exact runs_merge_some hr

/-- A way through a conditional statement and those that follow it. -/
def ways (dv : Defaults) (after : Option BlockRef) (z : Core.Expr) (body : List Core.Stmt)
    (rest : Core.Otherwise) : Lowering (Option BlockRef) := do
  let r ← branch after (expr dv z) (stmts dv body) (follows rest)
  otherwise dv r.1 r.2 rest

/-- Lowering goes on in the block behind the ways, if one of them leads there. -/
def resume : Option BlockRef → Lowering Unit
  | some b => build (.setInsertPoint b)
  | none => pure ()

instance : Steps env fs (after.toList ++ P) (resume after) (fun _ => P) 0 := by
  cases after with
  | some b => exact inferInstanceAs (Steps env fs (b :: P) (build (.setInsertPoint b)) _ 0)
  | none => exact .pure rfl

theorem stmt_branch {z : Core.Expr} {body : List Core.Stmt} :
    stmt dv (.branch z body rest) = ways dv none z body rest >>= resume := by
  rewrite [stmt, ways, bind_assoc]
  rfl

theorem otherwise_elseIf {no : BlockRef} {z : Core.Expr} {body : List Core.Stmt} :
    otherwise dv after no (.elseIf z body rest) = (do
      build (.setInsertPoint no)
      ways dv after z body rest) := by
  simp [otherwise, ways]

theorem steps_ways {z : Core.Expr} {body : List Core.Stmt} {rest : Core.Otherwise} {nr : Nat}
    (hz : Lowers fs (expr dv z) nz) (hb : Lowers fs (stmts dv body) nb)
    (hr : ∀ env after no P, Steps env fs (restBlock (follows rest) no ++ (after.toList ++ P))
      (otherwise dv after no rest) (fun r => r.toList ++ P) nr) (env : Env)
    (after : Option BlockRef) (P : List BlockRef) :
    Steps env fs (after.toList ++ P) (ways dv after z body rest) (fun r => r.toList ++ P)
      (nz + nb + nr) :=
  have := steps_branch hz hb
  .next fun r => hr env r.1 r.2 P

/-- The rounds of a loop, from its condition on. -/
def rounds (cz : Lowering ValueRef) (body : Lowering Unit) (test inner after : BlockRef) :
    Lowering Unit := do
  build (.setInsertPoint test)
  let c ← cz
  build (.condBr c inner after)
  build (.setInsertPoint inner)
  body
  if !(← build .isTerminated) then
    build (.br test)
  build (.setInsertPoint after)

theorem steps_rounds (hz : Lowers fs cz nz) (hb : Lowers fs body nb) (env : Env) (P : List BlockRef)
    (test inner after : BlockRef) :
    Steps env fs (after :: inner :: test :: P) (rounds cz body test inner after) (fun _ => P)
      (nz + nb) := by
  unfold rounds
  exact .mono (.next fun _ => .next fun c => .next fun _ => inferInstance) (by omega)

theorem loop_eq : loop cz body = (do
    let test ← newBlock "while.cond"
    let inner ← newBlock "while.body"
    let after ← newBlock "while.end"
    build (.br test)
    rounds cz body test inner after) :=
  rfl

theorem lowers_loop (hz : Lowers fs cz nz) (hb : Lowers fs body nb) :
    Lowers fs (loop cz body) (nz + nb) := by
  have := steps_rounds hz hb
  rw [loop_eq]
  exact .of (by omega)

/-! ## Statements -/

/-- The value of a sound expression where a plain type is expected. -/
theorem lowers_operand (dv : Defaults) {x : Core.Expr} {target : ExprTy} (hfs : Complete st fs)
    (hty : x.type.type.isPlain) (ht : target.type.isPlain) (hx : x.Sound st) :
    Lowers fs ((operand dv x).as target) x.places :=
  lowers_as hty ht (lowers_expr dv hfs hx)

/-- A sound expression is no output. -/
theorem effect_eq {x : Core.Expr} (hx : x.Sound st) :
    effect dv x = (do let _ ← expr dv x) := by
  cases x with
  | println args => simp [Core.Expr.Sound] at hx
  | _ => rfl

variable {result : Ty}

mutual

theorem lowers_stmt (dv : Defaults) (hfs : Complete st fs) : ∀ {x : Core.Stmt}, x.Sound st result →
    Lowers fs (stmt dv x) x.places
  | .expr x, hx => by
    have := lowers_expr dv hfs hx
    unfold stmt Core.Stmt.places
    rw [effect_eq hx]
    exact .of (by omega)
  | .declare v, hx => by
    exact fun _ _ => .of_adds fun _ _ _ _ _ _ h hr => (h.bindDeclared hx hr).choose_spec.adds
  | .bind v x, hx => by
    have := lowers_operand dv hfs hx.2.1 (Var.Sound.type_isPlain hx.1) hx.2.2
    have := lowers_bindValue fs hx.1
    unfold stmt Core.Stmt.places
    rw [bindLocal_eq hx.1]
    exact .of (by omega)
  | .assign v x, hx => by
    have := lowers_operand dv hfs hx.2.1 (Var.Sound.type_isPlain hx.1) hx.2.2
    unfold stmt Core.Stmt.places
    rw [assign_eq hx.1]
    exact .of (by omega)
  | .branch z body rest, hx => by
    have := steps_ways (lowers_expr dv hfs hx.2.1) (lowers_stmts dv hfs hx.2.2.1)
      (steps_otherwise dv hfs hx.2.2.2)
    rw [stmt_branch]
    intro env P
    show Steps env fs (Option.toList none ++ P) _ _ _
    exact .next (j := 0) fun _ => inferInstance
  | .loop z body, hx => by
    exact lowers_loop (lowers_expr dv hfs hx.2.1) (lowers_stmts dv hfs hx.2.2)
  | .retVoid, _ => by
    unfold stmt Core.Stmt.places
    exact .of (by omega)
  | .ret x ty, hx => by
    have := lowers_operand dv hfs hx.2.2.1 (show (ExprTy.val ty).type.isPlain from hx.2.1) hx.2.2.2
    unfold stmt Core.Stmt.places
    rw [ret_eq hx.2.1]
    exact .of (by omega)
  | .destructure _ _, hx | .fieldAssign _ _ _, hx | .indexAssign _ _ _ _ _, hx | .free _, hx => by
    simp [Core.Stmt.Sound] at hx

theorem lowers_stmts (dv : Defaults) (hfs : Complete st fs) : ∀ {xs : List Core.Stmt},
    Core.SoundStmts st result xs → Lowers fs (stmts dv xs) (Core.placesOfStmts xs)
  | [], _ => by
    unfold stmts Core.placesOfStmts
    exact .of (by omega)
  | x :: xs, hx => by
    have := lowers_stmt dv hfs hx.1
    have := lowers_stmts dv hfs hx.2
    unfold stmts Core.placesOfStmts
    exact .of (by omega)

theorem steps_otherwise (dv : Defaults) (hfs : Complete st fs) : ∀ {x : Core.Otherwise},
    x.Sound st result → ∀ env after no P,
      Steps env fs (restBlock (follows x) no ++ (after.toList ++ P)) (otherwise dv after no x)
        (fun r => r.toList ++ P) x.places
  | .none, _, env, after, no, P => by
    exact .pure rfl
  | .elseIf z body rest, hx, env, after, no, P => by
    have := steps_ways (lowers_expr dv hfs hx.2.1) (lowers_stmts dv hfs hx.2.2.1)
      (steps_otherwise dv hfs hx.2.2.2)
    rw [otherwise_elseIf]
    unfold Core.Otherwise.places
    exact .mono (Steps.next (P := no :: (after.toList ++ P)) fun _ => inferInstance) (by omega)
  | .final body, hx, env, after, no, P => by
    have := lowers_stmts dv hfs hx
    unfold otherwise Core.Otherwise.places
    exact .mono (Steps.next (P := no :: (after.toList ++ P)) fun _ => inferInstance) (by omega)

end

/-! ## Parameters -/

theorem Stands.bindParams {y : Unit} : ∀ {vars : List Var} {s : LoweringState},
    Stands f e b s → (∀ v ∈ vars, v.Sound st) → Runs (bindParams params vars) env s y t →
      Adds f e b s b t vars.length
  | [], s, h, _, hr => by
    obtain ⟨-, rfl⟩ := hr
    exact .refl h
  | v :: vs, s, h, hv, hr => by
    simp only [Lowering.bindParams, runs_bind] at hr
    obtain ⟨_, u, hr, hrs⟩ := hr
    rw [bindParam_eq (hv v List.mem_cons_self)] at hr
    have g := (h.bindValue (hv v List.mem_cons_self) hr).adds
    have gs := g.stands.bindParams (fun w hw => hv w (List.mem_cons_of_mem v hw)) hrs
    exact (g.trans gs).mono (by rw [List.length_cons]; omega)

end SsaCompiler.Lowering
