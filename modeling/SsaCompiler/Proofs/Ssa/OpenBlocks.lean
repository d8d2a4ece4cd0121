import SsaCompiler.Proofs.Lowering.Construction

/-!
# Open blocks

A block is open until it is given an end. Of all steps of construction, few have to do with this: a
new block is open, and a block that gets its end is not open any more. All others are quiet: they make
no block and end none.
-/

namespace SsaCompiler.Ssa

variable {name : String} {sig : Ty} {names : List String}

/-- Whether the misuse is one of blocks and their ends. -/
def Misuse.isFlow : Misuse → Bool
  | .noInsertPoint | .insertTerminated .. | .terminatedTwice .. => true
  | .definedTwice _ | .noField .. => false

namespace Module

variable {m m' m'' : Module} {b c : BlockRef} {f : FuncRef}

/-- The block has no end. -/
def IsOpen (m : Module) (b : BlockRef) : Prop :=
  b < m.blocks.size ∧ (m.block b).isTerminated = false

/-- The blocks that a function lists are its own, and its entry block is one of them. -/
structure OwnBlocks (m : Module) : Prop where
  block : ∀ f, ∀ b ∈ (m.func f).blocks, b < m.blocks.size ∧ (m.block b).func = f
  entry : ∀ f e, (m.func f).entry = some e → e ∈ (m.func f).blocks

/-! ## Quiet steps -/

/-- No block is made or ended. -/
structure Quiet (m m' : Module) : Prop where
  size : m'.blocks.size = m.blocks.size
  isTerminated : ∀ b, (m'.block b).isTerminated = (m.block b).isTerminated
  home : ∀ b, (m'.block b).func = (m.block b).func
  blocks : ∀ f, (m'.func f).blocks = (m.func f).blocks
  entry : ∀ f, (m'.func f).entry = (m.func f).entry

namespace Quiet

theorem refl (m : Module) : Quiet m m :=
  ⟨rfl, fun _ => rfl, fun _ => rfl, fun _ => rfl, fun _ => rfl⟩

theorem trans (h : Quiet m m') (k : Quiet m' m'') : Quiet m m'' :=
  ⟨k.size.trans h.size, fun b => (k.isTerminated b).trans (h.isTerminated b),
    fun b => (k.home b).trans (h.home b), fun f => (k.blocks f).trans (h.blocks f),
    fun f => (k.entry f).trans (h.entry f)⟩

/-- Only functions differ, and not in their blocks. -/
theorem of_funcs (hblocks : m'.blocks = m.blocks)
    (hfunc : ∀ f, (m'.func f).blocks = (m.func f).blocks ∧ (m'.func f).entry = (m.func f).entry) :
    Quiet m m' := by
  have hblock : ∀ b, m'.block b = m.block b := by
    intro b
    unfold Module.block
    rw [hblocks]
  exact ⟨by rw [hblocks], fun b => by rw [hblock], fun b => by rw [hblock],
    fun f => (hfunc f).1, fun f => (hfunc f).2⟩

theorem isOpen_iff (h : Quiet m m') : m'.IsOpen b ↔ m.IsOpen b := by
  unfold IsOpen
  rw [h.size, h.isTerminated]

theorem ownBlocks (h : Quiet m m') (ho : m.OwnBlocks) : m'.OwnBlocks where
  block f b hb := by
    rw [h.blocks] at hb
    rw [h.size, h.home]
    exact ho.block f b hb
  entry f e he := by
    rw [h.entry] at he
    rw [h.blocks]
    exact ho.entry f e he

end Quiet

theorem quiet_modifyFunc {g : Func → Func}
    (hg : ∀ x, (g x).blocks = x.blocks ∧ (g x).entry = x.entry) :
    Quiet m (m.modifyFunc f g) := by
  refine .of_funcs rfl fun k => ?_
  rw [func_modifyFunc]
  split
  · exact hg _
  · exact ⟨rfl, rfl⟩

theorem Emits.quiet {place : Option BlockRef} {x : Value} (h : Emits m place x m') : Quiet m m' :=
  ⟨h.blocks, fun b => by rw [h.block_eq]; rfl, fun b => by rw [h.block_eq], h.lists,
    fun f => (h.func f).entry⟩

theorem quiet_globalString (m : Module) (name data : String) :
    Quiet m (m.globalString name data).2 := by
  unfold globalString
  split
  · exact .refl m
  · exact .of_funcs rfl fun _ => ⟨rfl, rfl⟩

theorem quiet_declareFunction (m : Module) (name : String) (sig : Ty) :
    Quiet m (m.declareFunction name sig).2 := by
  unfold declareFunction
  split
  · exact .refl m
  · refine .of_funcs rfl fun k => ?_
    show ((m.funcs.push _).getD k default).blocks = _ ∧ ((m.funcs.push _).getD k default).entry = _
    rw [getD_push]
    split
    next hk =>
      subst hk
      have : m.func m.funcs.size = default := by simp [func]
      rw [this]
      exact ⟨rfl, rfl⟩
    next => exact ⟨rfl, rfl⟩

theorem quiet_addParams (f : FuncRef) (e : BlockRef) : ∀ (ts : List Ty) (names : List String)
    (i : Nat) (m : Module), Quiet m (m.addParams f e ts names i)
  | [], _, _, m => .refl m
  | t :: ts, names, i, m => by
    unfold addParams
    extract_lets aux
    have h₁ := (emits_newValue m e { op := .arg, type := t, auxInt := i, aux := aux }).quiet
    refine (h₁.trans ?_).trans (quiet_addParams f e ts names.tail (i + 1) _)
    exact quiet_modifyFunc fun _ => ⟨rfl, rfl⟩

/-! ## New blocks -/

/-- A new block of a function is open. -/
structure Opens (m : Module) (f : FuncRef) (m' : Module) : Prop where
  size : m'.blocks.size = m.blocks.size + 1
  isTerminated : ∀ b < m.blocks.size, (m'.block b).isTerminated = (m.block b).isTerminated
  home : ∀ b < m.blocks.size, (m'.block b).func = (m.block b).func
  new : (m'.block m.blocks.size).isTerminated = false
  newHome : (m'.block m.blocks.size).func = f
  entry : ∀ g e, (m.func g).entry = some e → (m'.func g).entry = some e
  ownBlocks : m.OwnBlocks → m'.OwnBlocks

namespace Opens

theorem isOpen_new (h : Opens m f m') : m'.IsOpen m.blocks.size :=
  ⟨by rw [h.size]; exact Nat.lt_succ_self _, h.new⟩

theorem isOpen (h : Opens m f m') (hb : m.IsOpen b) : m'.IsOpen b :=
  ⟨by rw [h.size]; exact Nat.lt_succ_of_lt hb.1, (h.isTerminated b hb.1).trans hb.2⟩

theorem isOpen_cases (h : Opens m f m') (hb : m'.IsOpen b) : m.IsOpen b ∨ b = m.blocks.size := by
  have hlt := hb.1
  rw [h.size] at hlt
  rcases Nat.lt_or_eq_of_le (Nat.le_of_lt_succ hlt) with hlt | rfl
  · exact .inl ⟨hlt, (h.isTerminated b hlt).symm.trans hb.2⟩
  · exact .inr rfl

theorem quiet (h : Opens m f m') (k : Quiet m' m'') : Opens m f m'' :=
  ⟨k.size.trans h.size, fun b hb => (k.isTerminated b).trans (h.isTerminated b hb),
    fun b hb => (k.home b).trans (h.home b hb), (k.isTerminated _).trans h.new,
    (k.home _).trans h.newHome, fun g e he => (k.entry g).trans (h.entry g e he),
    fun ho => k.ownBlocks (h.ownBlocks ho)⟩

theorem of_quiet (k : Quiet m m') (h : Opens m' f m'') : Opens m f m'' := by
  refine ⟨by rw [h.size, k.size], fun b hb => ?_, fun b hb => ?_, by rw [← k.size]; exact h.new,
    by rw [← k.size]; exact h.newHome, fun g e he => h.entry g e ((k.entry g).trans he),
    fun ho => h.ownBlocks (k.ownBlocks ho)⟩
  · rw [h.isTerminated b (by rw [k.size]; exact hb), k.isTerminated]
  · rw [h.home b (by rw [k.size]; exact hb), k.home]

end Opens

/-- A block has been added behind the blocks of a function, which may have got its entry that way. -/
theorem opens_push {x : Block} (hopen : x.isTerminated = false) (hhome : x.func = f)
    (hblocks : m'.blocks = m.blocks.push x)
    (hfunc : ∀ g, (∀ b ∈ (m'.func g).blocks, b ∈ (m.func g).blocks ∨ g = f ∧ b = m.blocks.size) ∧
      (∀ e, (m.func g).entry = some e → (m'.func g).entry = some e) ∧
      (m.OwnBlocks → ∀ e, (m'.func g).entry = some e → e ∈ (m'.func g).blocks)) :
    Opens m f m' := by
  have hblock : ∀ b, m'.block b = if b = m.blocks.size then x else m.block b := by
    intro b
    unfold block
    rw [hblocks]
    exact getD_push ..
  have hold : ∀ b < m.blocks.size, m'.block b = m.block b := by
    intro b hb
    rw [hblock, if_neg (Nat.ne_of_lt hb)]
  have hnew : m'.block m.blocks.size = x := by rw [hblock, if_pos rfl]
  have hsize : m'.blocks.size = m.blocks.size + 1 := by rw [hblocks, Array.size_push]
  refine ⟨hsize, fun b hb => by rw [hold b hb], fun b hb => by rw [hold b hb],
    by rw [hnew, hopen], by rw [hnew, hhome], fun g => (hfunc g).2.1,
    fun ho => ⟨fun g b hb => ?_, fun g => (hfunc g).2.2 ho⟩⟩
  rcases (hfunc g).1 b hb with hb | ⟨rfl, rfl⟩
  · obtain ⟨hlt, hg⟩ := ho.block g b hb
    exact ⟨hsize ▸ Nat.lt_succ_of_lt hlt, by rw [hold b hlt, hg]⟩
  · exact ⟨hsize ▸ Nat.lt_succ_self _, by rw [hnew, hhome]⟩

theorem opens_newBlock (m : Module) (f : FuncRef) (hint : String) :
    Opens m f (m.newBlock f hint).2 := by
  refine opens_push rfl rfl rfl fun g => ?_
  obtain ⟨hblocks, hentry⟩ := func_newBlock m f g hint
  rw [hblocks, hentry]
  refine ⟨fun b hb => ?_, fun _ he => he, fun ho e he => ?_⟩
  · split at hb
    next hfg =>
      rcases List.mem_append.mp hb with hb | hb
      · exact .inl hb
      · exact .inr ⟨hfg.1.symm, List.mem_singleton.mp hb⟩
    next => exact .inl hb
  · split
    · exact List.mem_append_left _ (ho.entry g e he)
    · exact ho.entry g e he

theorem func_setEntry (m : Module) (e : BlockRef) (hf : f < m.funcs.size) (g : FuncRef) :
    ((m.modifyFunc f fun x => { x with entry := some e }).func g).blocks = (m.func g).blocks ∧
      ((m.modifyFunc f fun x => { x with entry := some e }).func g).entry =
        if f = g then some e else (m.func g).entry := by
  rw [func_modifyFunc]
  by_cases hg : f = g
  · subst hg
    rw [if_pos ⟨rfl, hf⟩, if_pos rfl]
    exact ⟨rfl, rfl⟩
  · rw [if_neg fun h => hg h.1, if_neg hg]
    exact ⟨rfl, rfl⟩

/-- A declared function gets an entry block, which is open. -/
theorem opens_define (names : List String) (hf : f < m.funcs.size) (hdecl : (m.func f).entry = none) :
    Opens m f (m.define f names) ∧ ((m.define f names).func f).entry = some m.blocks.size := by
  have hsize : f < (m.newBlock f "entry").2.funcs.size := by
    show f < (m.funcs.modify f _).size
    rw [Array.size_modify]
    exact hf
  have hfunc := func_setEntry (m.newBlock f "entry").2 m.blocks.size hsize
  have hq : Quiet _ (m.define f names) := quiet_addParams f m.blocks.size _ names 0
    ((m.newBlock f "entry").2.modifyFunc f fun x => { x with entry := some m.blocks.size })
  refine ⟨(opens_push rfl rfl rfl fun g => ?_).quiet hq, ?_⟩
  · obtain ⟨hblocks, hentry⟩ := func_newBlock m f g "entry"
    rw [(hfunc g).1, (hfunc g).2, hblocks, hentry]
    by_cases hg : f = g
    · subst hg
      rw [if_pos ⟨rfl, hf⟩, if_pos rfl]
      refine ⟨fun b hb => ?_, fun e he => ?_, fun _ e he => ?_⟩
      · rcases List.mem_append.mp hb with hb | hb
        · exact .inl hb
        · exact .inr ⟨rfl, List.mem_singleton.mp hb⟩
      · rw [hdecl] at he
        cases he
      · obtain rfl := Option.some.inj he
        exact List.mem_append_right _ (List.mem_singleton_self _)
    · rw [if_neg fun h => hg h.1, if_neg hg]
      exact ⟨fun b hb => .inl hb, fun _ he => he, fun ho e he => ho.entry g e he⟩
  · rw [hq.entry, (hfunc f).2, if_pos rfl]

theorem opens_defineFunction? (h : m.defineFunction? name sig names = some (f, m')) :
    Opens m f m' ∧ (m.func f).entry = none ∧ (m'.func f).entry = some m.blocks.size := by
  have hq := quiet_declareFunction m name sig
  have hlt : (m.declareFunction name sig).1 < (m.declareFunction name sig).2.funcs.size := by
    unfold declareFunction
    split
    next g hg => exact (Array.findIdx?_eq_some_iff_getElem.mp hg).1
    next => simp
  unfold defineFunction? at h
  rcases hd : m.declareFunction name sig with ⟨g, m₁⟩
  rw [hd] at h hq hlt
  dsimp only at h hq hlt
  split at h
  next hdecl =>
    obtain ⟨rfl, rfl⟩ := Prod.mk.inj (Option.some.inj h)
    have hnone : (m₁.func g).entry = none := by simpa [Func.isDeclaration] using hdecl
    obtain ⟨ho, he⟩ := opens_define names hlt hnone
    rw [hq.size] at he
    exact ⟨ho.of_quiet hq, by rw [← hq.entry, hnone], he⟩
  next => cases h

/-! ## Ends of blocks -/

/-- A block has got its end. -/
structure Closes (m : Module) (b : BlockRef) (m' : Module) : Prop where
  size : m'.blocks.size = m.blocks.size
  ended : (m'.block b).isTerminated
  isTerminated : ∀ c, c ≠ b → (m'.block c).isTerminated = (m.block c).isTerminated
  home : ∀ c, (m'.block c).func = (m.block c).func
  funcs : m'.funcs = m.funcs

theorem Ends.closes {kind : BlockKind} {controls : List (Option ValueRef)} {succs : List BlockRef}
    (h : Ends m b kind controls succs m') (hend : kind ≠ .plain ∨ succs ≠ []) : Closes m b m' := by
  refine ⟨h.blocks, h.isTerminated hend, fun c hc => (h.there c hc).isTerminated, h.home_eq, h.funcs⟩

namespace Closes

theorem isOpen_iff (h : Closes m b m') : m'.IsOpen c ↔ m.IsOpen c ∧ c ≠ b := by
  unfold IsOpen
  rw [h.size]
  by_cases hc : c = b
  · subst hc
    simp [h.ended]
  · rw [h.isTerminated c hc]
    simp [hc]

theorem func (h : Closes m b m') (f : FuncRef) : m'.func f = m.func f := by
  unfold Module.func
  rw [h.funcs]

theorem ownBlocks (h : Closes m b m') (ho : m.OwnBlocks) : m'.OwnBlocks where
  block f c hc := by
    rw [h.func] at hc
    rw [h.size, h.home]
    exact ho.block f c hc
  entry f e he := by
    rw [h.func] at he ⊢
    exact ho.entry f e he

end Closes

end Module

/-! ## Steps of construction -/

namespace Build

open Lowering (run_module)

variable {α β : Type} {s t : Builder} {e : Misuse}

theorem run_bind_error {x : Build α} {f : α → Build β} : (x >>= f).run s = .error e ↔
    x.run s = .error e ∨ ∃ a u, x.run s = .ok (a, u) ∧ (f a).run u = .error e := by
  rw [StateT.run_bind]
  cases h : x.run s with
  | error e' =>
    constructor
    · intro h'
      cases h'
      exact .inl rfl
    · rintro (h' | ⟨a, u, h', -⟩)
      · cases h'
        rfl
      · cases h'
  | ok r =>
    obtain ⟨a, u⟩ := r
    constructor
    · intro h'
      exact .inr ⟨a, u, rfl, h'⟩
    · rintro (h' | ⟨a', u', h', hf⟩)
      · cases h'
      · cases h'
        exact hf

/-! ## Functions -/

theorem run_defineFunction :
    (defineFunction name sig names).run s = .ok (f, t) ↔
      ∃ m, s.module.defineFunction? name sig names = some (f, m) ∧ t = { s with module := m } := by
  unfold defineFunction
  simp only [run_bind_ok, run_module]
  constructor
  · rintro ⟨m, u, ⟨rfl, rfl⟩, h⟩
    cases hdef : u.module.defineFunction? name sig names with
    | none =>
      rw [hdef] at h
      cases h
    | some r =>
      rw [hdef] at h
      cases h
      exact ⟨_, rfl, rfl⟩
  · rintro ⟨m, hdef, rfl⟩
    refine ⟨s.module, s, ⟨rfl, rfl⟩, ?_⟩
    rw [hdef]
    rfl

/-- A function cannot be defined only if it has been defined before. -/
theorem eq_of_defineFunction_error (h : (defineFunction name sig names).run s = .error e) :
    e = .definedTwice name := by
  rcases run_bind_error.mp h with h | ⟨m, u, hm, h⟩
  · cases h
  cases hdef : m.defineFunction? name sig names with
  | none =>
    rw [hdef] at h
    cases h
    rfl
  | some r =>
    rw [hdef] at h
    cases h

end Build

end SsaCompiler.Ssa
