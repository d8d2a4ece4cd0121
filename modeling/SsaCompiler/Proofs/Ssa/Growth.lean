import SsaCompiler.Ssa.Builder

/-!
# How modules grow

Construction only adds to a module. A value keeps what it computes; only the count of its uses
changes. Blocks get further values at their end until they are given an end themselves, and from then
on nothing but slots, which go to the entry block wherever they are needed. `Module.Grows` says all
this of two modules, for everything that the machine looks at, and each step of construction is shown
to let the module grow.
-/

namespace SsaCompiler.Ssa

open List

/-! ## What execution depends on -/

/-- Two values compute the same. -/
structure Value.Like (x y : Value) : Prop where
  op : x.op = y.op
  type : x.type = y.type
  args : x.args = y.args
  auxInt : x.auxInt = y.auxInt
  aux : x.aux = y.aux

/-- Two blocks hold the same values and end in the same way. -/
structure Block.Like (x y : Block) : Prop where
  values : x.values = y.values
  kind : x.kind = y.kind
  controls : x.controls = y.controls
  succs : x.succs = y.succs
  func : x.func = y.func

/-- Two functions start in the same way. -/
structure Func.Like (x y : Func) : Prop where
  name : x.name = y.name
  sig : x.sig = y.sig
  params : x.params = y.params
  entry : x.entry = y.entry

namespace Value.Like

theorem refl (x : Value) : x.Like x := ⟨rfl, rfl, rfl, rfl, rfl⟩

theorem trans {x y z : Value} (h : x.Like y) (k : y.Like z) : x.Like z :=
  ⟨h.op.trans k.op, h.type.trans k.type, h.args.trans k.args, h.auxInt.trans k.auxInt,
    h.aux.trans k.aux⟩

end Value.Like

namespace Block.Like

theorem refl (x : Block) : x.Like x := ⟨rfl, rfl, rfl, rfl, rfl⟩

theorem trans {x y z : Block} (h : x.Like y) (k : y.Like z) : x.Like z :=
  ⟨h.values.trans k.values, h.kind.trans k.kind, h.controls.trans k.controls,
    h.succs.trans k.succs, h.func.trans k.func⟩

theorem isTerminated {x y : Block} (h : x.Like y) : x.isTerminated = y.isTerminated := by
  unfold Block.isTerminated
  rw [h.kind, h.succs]

end Block.Like

namespace Func.Like

theorem refl (x : Func) : x.Like x := ⟨rfl, rfl, rfl, rfl⟩

theorem trans {x y z : Func} (h : x.Like y) (k : y.Like z) : x.Like z :=
  ⟨h.name.trans k.name, h.sig.trans k.sig, h.params.trans k.params, h.entry.trans k.entry⟩

end Func.Like

/-! ## Single updates -/

namespace Module

variable {m m' : Module} {b c : BlockRef} {v r : ValueRef} {f : FuncRef} {m₁ m₂ m₃ : Module}

theorem getD_modify {α : Type} [Inhabited α] (xs : Array α) (i j : Nat) (g : α → α) :
    (xs.modify i g).getD j default =
      if i = j ∧ j < xs.size then g (xs.getD j default) else xs.getD j default := by
  by_cases hj : j < xs.size
  · simp only [Array.getD_eq_getD_getElem?, Array.getElem?_modify, hj, and_true]
    split <;> simp [hj]
  · simp [Array.getD_eq_getD_getElem?, hj]

theorem getD_push {α : Type} [Inhabited α] (xs : Array α) (x : α) (j : Nat) :
    (xs.push x).getD j default = if j = xs.size then x else xs.getD j default := by
  simp only [Array.getD_eq_getD_getElem?, Array.getElem?_push]
  split <;> rfl

theorem value_modifyValue (m : Module) (v w : ValueRef) (k : Value → Value) :
    (m.modifyValue v k).value w =
      if v = w ∧ w < m.values.size then k (m.value w) else m.value w :=
  getD_modify m.values v w k

theorem block_modifyBlock (m : Module) (b c : BlockRef) (k : Block → Block) :
    (m.modifyBlock b k).block c =
      if b = c ∧ c < m.blocks.size then k (m.block c) else m.block c :=
  getD_modify m.blocks b c k

theorem block_modifyBlock_of_lt (hb : b < m.blocks.size) (k : Block → Block) (c : BlockRef) :
    (m.modifyBlock b k).block c = if c = b then k (m.block c) else m.block c := by
  rw [block_modifyBlock]
  by_cases hc : c = b
  · subst hc
    rw [if_pos ⟨rfl, hb⟩, if_pos rfl]
  · rw [if_neg fun e => hc e.1.symm, if_neg hc]

theorem func_modifyFunc (m : Module) (f g : FuncRef) (k : Func → Func) :
    (m.modifyFunc f k).func g = if f = g ∧ g < m.funcs.size then k (m.func g) else m.func g :=
  getD_modify m.funcs f g k

/-- Only the counts of uses differ. -/
structure Recounted (m m' : Module) : Prop where
  size : m'.values.size = m.values.size
  value : ∀ v, (m'.value v).Like (m.value v)
  blocks : m'.blocks = m.blocks
  funcs : m'.funcs = m.funcs
  globals : m'.globals = m.globals

theorem Recounted.refl (m : Module) : m.Recounted m :=
  ⟨rfl, fun _ => .refl _, rfl, rfl, rfl⟩

theorem Recounted.trans (h : m₁.Recounted m₂) (k : m₂.Recounted m₃) :
    m₁.Recounted m₃ :=
  ⟨k.size.trans h.size, fun v => (k.value v).trans (h.value v), k.blocks.trans h.blocks,
    k.funcs.trans h.funcs, k.globals.trans h.globals⟩

theorem recounted_modifyValue (m : Module) (v : ValueRef) (k : Int → Int) :
    m.Recounted (m.modifyValue v fun x => { x with uses := k x.uses }) := by
  refine ⟨Array.size_modify .., fun w => ?_, rfl, rfl, rfl⟩
  rw [value_modifyValue]
  split
  · exact ⟨rfl, rfl, rfl, rfl, rfl⟩
  · exact .refl _

/-- Uses are counted one after the other. -/
theorem recounted_foldl (m : Module) (k : Int → Int) (vs : List (Option ValueRef)) :
    m.Recounted (vs.foldl (fun m v => v.elim m fun v =>
      m.modifyValue v fun x => { x with uses := k x.uses }) m) := by
  refine List.foldlRecOn (motive := m.Recounted) _ _ (.refl m) fun m' h v _ => ?_
  cases v with
  | none => exact h
  | some v => exact h.trans (recounted_modifyValue m' v k)

theorem recounted_addUses (m : Module) (vs : List (Option ValueRef)) : m.Recounted (m.addUses vs) :=
  recounted_foldl m (· + 1) vs

theorem recounted_dropUses (m : Module) (vs : List (Option ValueRef)) :
    m.Recounted (m.dropUses vs) :=
  recounted_foldl m (· - 1) vs

theorem Recounted.block (h : m.Recounted m') (b : BlockRef) : m'.block b = m.block b := by
  unfold Module.block
  rw [h.blocks]

theorem Recounted.func (h : m.Recounted m') (f : FuncRef) : m'.func f = m.func f := by
  unfold Module.func
  rw [h.funcs]

/-! ## New values -/

/-- A value has been added, at the end of a block or outside of blocks. -/
structure Emits (m : Module) (place : Option BlockRef) (x : Value) (m' : Module) : Prop where
  size : m'.values.size = m.values.size + 1
  new : (m'.value m.values.size).Like x
  old : ∀ v < m.values.size, (m'.value v).Like (m.value v)
  blocks : m'.blocks.size = m.blocks.size
  block : ∀ c, m'.block c = if place = some c ∧ c < m.blocks.size then
    { m.block c with values := (m.block c).values ++ [m.values.size] } else m.block c
  funcs : m'.funcs.size = m.funcs.size
  func : ∀ f, (m'.func f).Like (m.func f)
  lists : ∀ f, (m'.func f).blocks = (m.func f).blocks
  globals : m'.globals = m.globals

theorem emits_newValue (m : Module) (b : BlockRef) (x : Value) :
    Emits m (some b) x (m.newValue b false x).2 := by
  unfold newValue
  extract_lets r fn y m₁ m₂ m₃
  have h₃ : m₂.Recounted m₃ := recounted_addUses m₂ y.args
  have hvalue : ∀ v, m₂.value v = if v = r then y else m.value v := fun v =>
    getD_push m.values y v
  have hfunc : ∀ f, m₃.func f = m₂.func f := h₃.func
  refine ⟨?_, ?_, fun v hv => ?_, ?_, fun c => ?_, ?_, fun f => ?_, fun f => ?_,
    h₃.globals⟩
  · show m₃.values.size = _
    rw [h₃.size]
    exact Array.size_push ..
  · have h := h₃.value r
    rw [hvalue, if_pos rfl] at h
    exact ⟨h.op, h.type, h.args, h.auxInt, h.aux⟩
  · have h := h₃.value v
    rw [hvalue, if_neg (Nat.ne_of_lt hv)] at h
    exact h
  · show (m₃.blocks.modify b _).size = _
    rw [Array.size_modify, h₃.blocks]
    rfl
  · rw [block_modifyBlock, h₃.block, h₃.blocks]
    simp only [Option.some.injEq]
    rfl
  · show m₃.funcs.size = _
    rw [h₃.funcs]
    exact Array.size_modify ..
  · show (m₃.func f).Like _
    rw [hfunc, func_modifyFunc]
    split
    · exact ⟨rfl, rfl, rfl, rfl⟩
    · exact .refl _
  · show (m₃.func f).blocks = _
    rw [hfunc, func_modifyFunc]
    split <;> rfl

theorem value_addConst (m : Module) (x : Value) (v : ValueRef) :
    (m.addConst x).2.value v = if v = m.values.size then x else m.value v :=
  getD_push m.values x v

theorem emits_addConst (m : Module) (x : Value) : Emits m none x (m.addConst x).2 := by
  refine ⟨Array.size_push .., ?_, fun v hv => ?_, rfl, fun c => (if_neg (by simp)).symm, rfl,
    fun _ => .refl _, fun _ => rfl, rfl⟩
  · rw [value_addConst, if_pos rfl]
    exact .refl _
  · rw [value_addConst, if_neg (Nat.ne_of_lt hv)]
    exact .refl _

namespace Emits

variable {place : Option BlockRef} {x : Value}

theorem here (h : Emits m (some b) x m') (hb : b < m.blocks.size) :
    m'.block b = { m.block b with values := (m.block b).values ++ [m.values.size] } :=
  (h.block b).trans (if_pos ⟨rfl, hb⟩)

theorem there (h : Emits m place x m') (hc : place ≠ some c) : m'.block c = m.block c :=
  (h.block c).trans (if_neg fun h => hc h.1)

theorem block_eq (h : Emits m place x m') (c : BlockRef) :
    m'.block c = { m.block c with values := (m'.block c).values } := by
  rw [h.block]
  split <;> rfl

end Emits

/-! ## New blocks -/

/-- An empty block has been added to a function. -/
structure AddsBlock (m : Module) (f : FuncRef) (m' : Module) : Prop where
  values : m'.values = m.values
  size : m'.blocks.size = m.blocks.size + 1
  new : (m'.block m.blocks.size).Like { number := 0, func := f }
  old : ∀ b < m.blocks.size, m'.block b = m.block b
  funcs : m'.funcs.size = m.funcs.size
  func : ∀ g, (m'.func g).Like (m.func g)

theorem AddsBlock.lt_or_eq {k : Nat} (h : AddsBlock m f m') (hk : k < m'.blocks.size) :
    k < m.blocks.size ∨ k = m.blocks.size := by
  have := h.size
  omega

theorem addsBlock_newBlock (m : Module) (f : FuncRef) (hint : String) :
    AddsBlock m f (m.newBlock f hint).2 := by
  refine ⟨rfl, Array.size_push .., ?_, fun b hb => ?_, Array.size_modify .., fun g => ?_⟩
  · unfold newBlock block modifyFunc
    extract_lets r x m₁
    rw [getD_push, if_pos rfl]
    exact ⟨rfl, rfl, rfl, rfl, rfl⟩
  · exact (getD_push m.blocks _ b).trans (if_neg (Nat.ne_of_lt hb))
  · unfold newBlock
    extract_lets r x m₁
    rw [func_modifyFunc]
    split
    · exact ⟨rfl, rfl, rfl, rfl⟩
    · exact .refl _

theorem func_newBlock (m : Module) (f g : FuncRef) (hint : String) :
    ((m.newBlock f hint).2.func g).blocks =
        (if f = g ∧ g < m.funcs.size then (m.func g).blocks ++ [m.blocks.size]
          else (m.func g).blocks) ∧
      ((m.newBlock f hint).2.func g).entry = (m.func g).entry := by
  unfold newBlock
  extract_lets r x m₁
  rw [func_modifyFunc]
  split
  · exact ⟨rfl, rfl⟩
  · exact ⟨rfl, rfl⟩

/-! ## Ends of blocks -/

/-- A block has been given an end. -/
structure Ends (m : Module) (b : BlockRef) (kind : BlockKind) (controls : List (Option ValueRef))
    (succs : List BlockRef) (m' : Module) : Prop where
  size : m'.values.size = m.values.size
  value : ∀ v, (m'.value v).Like (m.value v)
  blocks : m'.blocks.size = m.blocks.size
  here : (m'.block b).Like { m.block b with kind := kind, controls := controls, succs := succs }
  there : ∀ c, c ≠ b → (m'.block c).Like (m.block c)
  funcs : m'.funcs = m.funcs
  globals : m'.globals = m.globals

theorem block_modifyBlock_like {g : Block → Block} (hg : ∀ x, (g x).Like x) (c : BlockRef) :
    ((m.modifyBlock b g).block c).Like (m.block c) := by
  rw [block_modifyBlock]
  split
  · exact hg _
  · exact .refl _

/-- The end gets a kind first, then controls and successors. -/
theorem ends_kind (hb : b < m.blocks.size) (kind : BlockKind) :
    Ends m b kind (m.block b).controls (m.block b).succs
      (m.modifyBlock b fun x => { x with kind := kind }) := by
  refine ⟨rfl, fun _ => .refl _, Array.size_modify .., ?_, fun c hc => ?_, rfl, rfl⟩
  · rw [block_modifyBlock_of_lt hb, if_pos rfl]
    exact .refl _
  · rw [block_modifyBlock_of_lt hb, if_neg hc]
    exact .refl _

theorem Ends.addSucc (h : Ends m b kind controls succs m') (hb : b < m.blocks.size) (d : BlockRef) :
    Ends m b kind controls (succs ++ [d]) (m'.addSucc b d) := by
  have hpreds : ∀ (n : Module) c,
      ((n.modifyBlock d fun x => { x with preds := x.preds ++ [b] }).block c).Like (n.block c) := by
    intro n c
    refine block_modifyBlock_like ?_ c
    exact fun _ => ⟨rfl, rfl, rfl, rfl, rfl⟩
  have hb : b < m'.blocks.size := h.blocks ▸ hb
  refine ⟨h.size, h.value, ?_, ?_, fun c hc => ?_, h.funcs, h.globals⟩
  · unfold Module.addSucc modifyBlock
    rw [Array.size_modify, Array.size_modify, h.blocks]
  · refine (hpreds _ b).trans ?_
    rw [block_modifyBlock_of_lt hb, if_pos rfl]
    exact ⟨h.here.values, h.here.kind, h.here.controls, by rw [h.here.succs], h.here.func⟩
  · refine (hpreds _ c).trans ?_
    rw [block_modifyBlock_of_lt hb, if_neg hc]
    exact h.there c hc

theorem Ends.setControl (h : Ends m b kind controls succs m') (hb : b < m.blocks.size)
    (x : Option ValueRef) : Ends m b kind [x] succs (m'.setControl b x) := by
  have hu := recounted_addUses (m'.modifyBlock b fun y => { y with controls := [x] }) [x]
  have hc : ∀ c, (m'.setControl b x).block c =
      if c = b then { m'.block c with controls := [x] } else m'.block c := fun c =>
    (hu.block c).trans (block_modifyBlock_of_lt (h.blocks ▸ hb) _ c)
  refine ⟨hu.size.trans h.size, fun v => (hu.value v).trans (h.value v), ?_, ?_, fun c hcb => ?_,
    hu.funcs.trans h.funcs, hu.globals.trans h.globals⟩
  · rw [show (m'.setControl b x).blocks = _ from hu.blocks]
    exact (Array.size_modify ..).trans h.blocks
  · rw [hc, if_pos rfl]
    exact ⟨h.here.values, h.here.kind, rfl, h.here.succs, h.here.func⟩
  · rw [hc, if_neg hcb]
    exact h.there c hcb

section

variable {kind : BlockKind} {controls : List (Option ValueRef)} {succs : List BlockRef}
  (h : Ends m b kind controls succs m')

include h

theorem Ends.func_eq (f : FuncRef) : m'.func f = m.func f := by
  unfold Module.func
  rw [h.funcs]

theorem Ends.home_eq (c : BlockRef) : (m'.block c).func = (m.block c).func := by
  by_cases hc : c = b
  · subst hc
    exact h.here.func
  · exact (h.there c hc).func

theorem Ends.values_eq (c : BlockRef) : (m'.block c).values = (m.block c).values := by
  by_cases hc : c = b
  · subst hc
    exact h.here.values
  · exact (h.there c hc).values

theorem Ends.isTerminated (hend : kind ≠ .plain ∨ succs ≠ []) : (m'.block b).isTerminated := by
  rw [h.here.isTerminated]
  unfold Block.isTerminated
  rcases hend with hend | hend <;> simp [hend]

end

/-! ## Growth -/

/-- Whether a value is a slot for a single integer. -/
def isIntSlot (m : Module) (v : ValueRef) : Bool :=
  (m.value v).op == .alloca && (m.value v).args.isEmpty &&
    match (m.value v).type with
    | .pointer (.int bits) => bits ≤ 64
    | _ => false

theorem isIntSlot_congr (h : (m'.value v).Like (m.value v)) : m'.isIntSlot v = m.isIntSlot v := by
  unfold isIntSlot
  rw [h.op, h.args, h.type]

theorem value_of_size_le (h : m.values.size ≤ v) : m.value v = default := by
  unfold value
  rw [Array.getD_eq_getD_getElem?, Array.getElem?_eq_none h]
  rfl

theorem lt_size_of_isIntSlot (h : m.isIntSlot v) : v < m.values.size := by
  refine Nat.lt_of_not_le fun hv => ?_
  unfold isIntSlot at h
  rw [value_of_size_le hv] at h
  exact absurd h (by decide)

/-- Values have been added to a block; if it had an end, they are slots and it is the entry block. -/
def Continues (m m' : Module) (b : BlockRef) : Prop :=
  ∃ more, (m'.block b).values = (m.block b).values ++ more ∧ (∀ v ∈ more, m.values.size ≤ v) ∧
    ((m.block b).isTerminated →
      ∀ v ∈ more, m'.isIntSlot v ∧ (m'.func (m'.block b).func).entry = some b)

/-- A module has grown into another one. -/
structure Grows (m m' : Module) : Prop where
  values : m.values.size ≤ m'.values.size
  value : ∀ v < m.values.size, (m'.value v).Like (m.value v)
  noPhi : ∀ v, m.values.size ≤ v → (m'.value v).op ≠ .phi
  blocks : m.blocks.size ≤ m'.blocks.size
  home : ∀ b < m.blocks.size, (m'.block b).func = (m.block b).func
  code : ∀ b < m.blocks.size, m.Continues m' b
  stop : ∀ b < m.blocks.size, (m.block b).isTerminated →
    (m'.block b).kind = (m.block b).kind ∧ (m'.block b).controls = (m.block b).controls ∧
      (m'.block b).succs = (m.block b).succs
  funcs : m.funcs.size ≤ m'.funcs.size
  func : ∀ f < m.funcs.size, (m'.func f).Like (m.func f)

namespace Grows

theorem isTerminated (h : Grows m m') (hb : b < m.blocks.size)
    (ht : (m.block b).isTerminated) : (m'.block b).isTerminated := by
  obtain ⟨hk, -, hs⟩ := h.stop b hb ht
  unfold Block.isTerminated at ht ⊢
  rw [hk, hs]
  exact ht

theorem isIntSlot (h : Grows m m') (hv : m.isIntSlot v) : m'.isIntSlot v :=
  (isIntSlot_congr (h.value v (lt_size_of_isIntSlot hv))).trans hv

theorem noPhi_of_size_le (h : m.values.size ≤ v) : (m.value v).op ≠ .phi := by
  rw [value_of_size_le h]
  decide

theorem code_of_values (h : (m'.block b).values = (m.block b).values) : m.Continues m' b :=
  ⟨[], h.trans (append_nil _).symm, forall_mem_nil _,
    fun _ _ hv => absurd hv not_mem_nil⟩

theorem stop_of_like (h : (m'.block b).Like (m.block b)) :
    (m'.block b).kind = (m.block b).kind ∧ (m'.block b).controls = (m.block b).controls ∧
      (m'.block b).succs = (m.block b).succs :=
  ⟨h.kind, h.controls, h.succs⟩

theorem refl (m : Module) : Grows m m :=
  ⟨Nat.le_refl _, fun _ _ => .refl _, fun _ => noPhi_of_size_le, Nat.le_refl _, fun _ _ => rfl,
    fun _ _ => code_of_values rfl, fun _ _ _ => stop_of_like (.refl _), Nat.le_refl _,
    fun _ _ => .refl _⟩

theorem entry (h : Grows m m') (hb : b < m.blocks.size)
    (he : (m.func (m.block b).func).entry = some c) :
    (m'.func (m'.block b).func).entry = some c := by
  have hf : (m.block b).func < m.funcs.size := by
    refine Nat.lt_of_not_le fun hle => ?_
    unfold Module.func at he
    rw [Array.getD_eq_getD_getElem?, Array.getElem?_eq_none hle] at he
    exact nomatch he
  rw [h.home b hb]
  exact (h.func _ hf).entry.trans he

theorem trans (h : Grows m₁ m₂) (k : Grows m₂ m₃) : Grows m₁ m₃ := by
  refine ⟨Nat.le_trans h.values k.values, fun v hv => ?_, fun v hv => ?_,
    Nat.le_trans h.blocks k.blocks,
    fun b hb => ?_, fun b hb => ?_, fun b hb ht => ?_, Nat.le_trans h.funcs k.funcs,
    fun f hf => ?_⟩
  · exact (k.value v (Nat.lt_of_lt_of_le hv h.values)).trans (h.value v hv)
  · by_cases hv₂ : v < m₂.values.size
    · rw [(k.value v hv₂).op]
      exact h.noPhi v hv
    · exact k.noPhi v (Nat.le_of_not_lt hv₂)
  · exact (k.home b (Nat.lt_of_lt_of_le hb h.blocks)).trans (h.home b hb)
  · obtain ⟨more, hmore, hnew, hslots⟩ := h.code b hb
    obtain ⟨more', hmore', hnew', hslots'⟩ := k.code b (Nat.lt_of_lt_of_le hb h.blocks)
    refine ⟨more ++ more', by rw [hmore', hmore, append_assoc], fun v hv => ?_,
      fun ht v hv => ?_⟩
    · rcases mem_append.mp hv with hv | hv
      · exact hnew v hv
      · exact Nat.le_trans h.values (hnew' v hv)
    · rcases mem_append.mp hv with hv | hv
      · obtain ⟨hslot, hentry⟩ := hslots ht v hv
        exact ⟨k.isIntSlot hslot, k.entry (Nat.lt_of_lt_of_le hb h.blocks) hentry⟩
      · exact hslots' (h.isTerminated hb ht) v hv
  · obtain ⟨hk, hc, hs⟩ := h.stop b hb ht
    obtain ⟨hk', hc', hs'⟩ := k.stop b (Nat.lt_of_lt_of_le hb h.blocks) (h.isTerminated hb ht)
    exact ⟨hk'.trans hk, hc'.trans hc, hs'.trans hs⟩
  · exact (k.func f (Nat.lt_of_lt_of_le hf h.funcs)).trans (h.func f hf)

/-- A value lets a module grow, if it is added outside of blocks or in an open block, or if it is a slot
and the block the entry block. -/
theorem of_emits {place : Option BlockRef} {x : Value} (h : Emits m place x m') (hphi : x.op ≠ .phi)
    (hopen : ∀ b ∈ place, (m.block b).isTerminated →
      m'.isIntSlot m.values.size ∧ (m.func (m.block b).func).entry = some b) : Grows m m' := by
  refine ⟨by rw [h.size]; exact Nat.le_succ _, h.old, fun v hv => ?_, Nat.le_of_eq h.blocks.symm,
    fun c _ => by rw [h.block_eq], fun c hc => ?_, fun c _ _ => ?_, Nat.le_of_eq h.funcs.symm,
    fun f _ => h.func f⟩
  · by_cases hn : v = m.values.size
    · rw [hn, h.new.op]
      exact hphi
    · exact noPhi_of_size_le (by rw [h.size]; omega)
  · by_cases hplace : place = some c
    · subst hplace
      refine ⟨[m.values.size], by rw [h.here hc], forall_mem_singleton.mpr (Nat.le_refl _),
        fun ht => forall_mem_singleton.mpr ⟨(hopen c rfl ht).1, ?_⟩⟩
      rw [h.here hc]
      exact (h.func _).entry.trans (hopen c rfl ht).2
    · exact code_of_values (by rw [h.there hplace])
  · rw [h.block_eq]
    exact ⟨rfl, rfl, rfl⟩

theorem of_addsBlock (h : AddsBlock m f m') : Grows m m' := by
  have hvalue : ∀ v, m'.value v = m.value v := fun v => by unfold Module.value; rw [h.values]
  refine ⟨Nat.le_of_eq (by rw [h.values]), fun v _ => by rw [hvalue]; exact .refl _,
    fun v hv => by rw [hvalue]; exact noPhi_of_size_le hv, by rw [h.size]; exact Nat.le_succ _,
    fun b hb => by rw [h.old b hb],
    fun b hb => code_of_values (by rw [h.old b hb]),
    fun b hb _ => stop_of_like (by rw [h.old b hb]; exact .refl _), Nat.le_of_eq h.funcs.symm,
    fun g _ => h.func g⟩

theorem of_ends (h : Ends m b kind controls succs m') (hopen : (m.block b).isTerminated = false) :
    Grows m m' := by
  refine ⟨Nat.le_of_eq h.size.symm, fun v _ => h.value v,
    fun v hv => noPhi_of_size_le (by rw [h.size]; exact hv), Nat.le_of_eq h.blocks.symm,
    fun c _ => h.home_eq c, fun c _ => code_of_values (h.values_eq c), fun c _ ht => ?_,
    Nat.le_of_eq (by rw [h.funcs]), fun f _ => by rw [h.func_eq]; exact .refl _⟩
  by_cases hc : c = b
  · rw [hc, hopen] at ht
    exact absurd ht Bool.false_ne_true
  · exact stop_of_like (h.there c hc)

end Grows

/-! ## Counting slots -/

/-- The number of slots in a block. -/
def slotCount (m : Module) (b : BlockRef) : Nat :=
  (m.block b).values.countP m.isIntSlot

theorem countP_isIntSlot {vs : List ValueRef} (h : ∀ v ∈ vs, (m'.value v).Like (m.value v)) :
    vs.countP m'.isIntSlot = vs.countP m.isIntSlot :=
  countP_congr fun v hv => by rw [isIntSlot_congr (h v hv)]

theorem slotCount_congr (h : (m'.block b).values = (m.block b).values)
    (hv : ∀ v ∈ (m.block b).values, (m'.value v).Like (m.value v)) :
    m'.slotCount b = m.slotCount b := by
  unfold slotCount
  rw [h]
  exact countP_isIntSlot hv

theorem Emits.slotCount (h : Emits m place x m') (hb : b < m.blocks.size)
    (hv : ∀ v ∈ (m.block b).values, v < m.values.size) :
    m'.slotCount b = m.slotCount b +
      if place = some b ∧ m'.isIntSlot m.values.size then 1 else 0 := by
  have hold : (m.block b).values.countP m'.isIntSlot = m.slotCount b :=
    countP_isIntSlot fun v hmem => h.old v (hv v hmem)
  show (m'.block b).values.countP m'.isIntSlot = _
  by_cases hplace : place = some b
  · subst hplace
    rw [h.here hb, countP_append, hold, countP_singleton]
    simp
  · rw [h.there hplace, hold, if_neg fun hc => hplace hc.1]
    rfl

/-! ## Tidy modules -/

/-- The values of blocks are there, and open blocks have no controls yet. -/
structure Tidy (m : Module) : Prop where
  inside : ∀ b < m.blocks.size, ∀ v ∈ (m.block b).values, v < m.values.size
  bare : ∀ b < m.blocks.size, (m.block b).isTerminated = false → (m.block b).controls = []

namespace Tidy

theorem emits (h : Tidy m) (he : Emits m place x m') : Tidy m' := by
  constructor
  · intro c hc v hv
    rw [he.blocks] at hc
    rw [he.size]
    rw [he.block] at hv
    split at hv
    · rcases mem_append.mp hv with hv | hv
      · exact Nat.lt_succ_of_lt (h.inside c hc v hv)
      · rw [mem_singleton.mp hv]
        exact Nat.lt_succ_self _
    · exact Nat.lt_succ_of_lt (h.inside c hc v hv)
  · intro c hc ho
    rw [he.blocks] at hc
    rw [he.block_eq] at ho ⊢
    exact h.bare c hc ho

theorem addsBlock (h : Tidy m) (ha : AddsBlock m f m') : Tidy m' := by
  constructor
  · intro c hc v hv
    rw [ha.values]
    rcases ha.lt_or_eq hc with hn | rfl
    · rw [ha.old c hn] at hv
      exact h.inside c hn v hv
    · rw [ha.new.values] at hv
      exact absurd hv not_mem_nil
  · intro c hc ho
    rcases ha.lt_or_eq hc with hn | rfl
    · rw [ha.old c hn] at ho ⊢
      exact h.bare c hn ho
    · exact ha.new.controls

/-- A block has an end once its kind is not plain or it has a successor. -/
theorem ends (h : Tidy m) (he : Ends m b kind controls succs m') (hs : kind ≠ .plain ∨ succs ≠ []) :
    Tidy m' := by
  constructor
  · intro c hc v hv
    rw [he.blocks] at hc
    rw [he.values_eq] at hv
    rw [he.size]
    exact h.inside c hc v hv
  · intro c hc ho
    rw [he.blocks] at hc
    by_cases hcb : c = b
    · rw [hcb, he.isTerminated hs] at ho
      cases ho
    · rw [(he.there c hcb).isTerminated] at ho
      rw [(he.there c hcb).controls]
      exact h.bare c hc ho

theorem slotCount_le (h : Tidy m) (hg : Grows m m') (hb : b < m.blocks.size) :
    m.slotCount b ≤ m'.slotCount b := by
  obtain ⟨more, hmore, -, -⟩ := hg.code b hb
  have hold : (m.block b).values.countP m'.isIntSlot = m.slotCount b :=
    countP_isIntSlot fun v hv => hg.value v (h.inside b hb v hv)
  show _ ≤ (m'.block b).values.countP m'.isIntSlot
  rw [hmore, countP_append, hold]
  exact Nat.le_add_right _ _

end Tidy

end Module

end SsaCompiler.Ssa
