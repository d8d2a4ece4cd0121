import SsaCompiler.Proofs.Runs
import SsaCompiler.Proofs.Ssa.Growth

/-!
# Steps of construction

What the steps of construction do to the state of lowering. While the body of a method is lowered,
values go to the current block, and slots to the entry block of the function. `Stands` says where
lowering stands, and `Adds` what a piece of lowering may do: the module grows, and of the blocks that
were there before only the current one and the entry block are touched.
-/

namespace SsaCompiler

open Ssa.Module
open Ssa (ValueRef BlockRef FuncRef Value Module)

variable {x y : Ssa.Builder} {m : Module} {α : Type} {ty : Ssa.Ty} {name hint : String}
  {v : Core.Var} {a : α} {g : Module → α × Module}

namespace LoweringState

/-- The module under construction. -/
abbrev module (s : LoweringState) : Module := s.builder.module

/-- The state with another module. -/
def withModule (s : LoweringState) (m : Module) : LoweringState :=
  { s with builder := { s.builder with module := m } }

/-- The state with another current block. -/
def standingAt (s : LoweringState) (b : BlockRef) : LoweringState :=
  { s with builder := { s.builder with current := some b } }

end LoweringState

namespace Lowering

variable {env : Env} {s t : LoweringState} {f : FuncRef} {e b d : BlockRef} {r : ValueRef}

/-! ## Single steps -/

theorem run_currentBlock :
    Ssa.Build.currentBlock.run x = .ok (b, y) ↔ x.current = some b ∧ y = x := by
  obtain ⟨m, c⟩ := x
  cases c with
  | none => exact ⟨fun h => (nomatch h), fun h => (nomatch h.1)⟩
  | some c =>
    constructor
    · intro h
      cases h
      exact ⟨rfl, rfl⟩
    · rintro ⟨h, rfl⟩
      cases h
      rfl

theorem run_module : Ssa.Build.module.run x = .ok (m, y) ↔ m = x.module ∧ y = x :=
  run_ok_iff rfl

theorem run_making :
    (Ssa.Build.making g).run x = .ok (a, y) ↔
      a = (g x.module).1 ∧ y = { x with module := (g x.module).2 } :=
  run_ok_iff rfl

theorem run_modifyModule {g : Module → Module} {u : Unit} :
    (Ssa.Build.modifyModule g).run x = .ok (u, y) ↔ y = { x with module := g x.module } :=
  (run_ok_iff rfl).trans (and_iff_right rfl)

@[simp]
theorem runs_setInsertPoint {u : Unit} :
    Runs (build (.setInsertPoint b)) env s u t ↔ t = s.standingAt b :=
  (runs_build_iff rfl).trans (and_iff_right rfl)

@[simp]
theorem runs_typeOf : Runs (build (.typeOf r)) env s ty t ↔ ty = s.module.typeOf r ∧ t = s :=
  runs_build_iff rfl

@[simp]
theorem runs_module : Runs (build .module) env s m t ↔ m = s.module ∧ t = s :=
  runs_build_iff rfl

@[simp]
theorem runs_currentBlock :
    Runs (build .currentBlock) env s b t ↔ s.builder.current = some b ∧ t = s := by
  rw [runs_build]
  simp only [run_currentBlock]
  constructor
  · rintro ⟨_, ⟨h, rfl⟩, rfl⟩
    exact ⟨h, rfl⟩
  · rintro ⟨h, rfl⟩
    exact ⟨_, ⟨h, rfl⟩, rfl⟩

theorem runs_making :
    Runs (build (.making g)) env s a t ↔
      a = (g s.module).1 ∧ t = s.withModule (g s.module).2 :=
  runs_build_iff rfl

theorem runs_constInt {n : Int} :
    Runs (build (.constInt ty n)) env s r t ↔
      r = s.module.values.size ∧ t = s.withModule (s.module.constInt ty n).2 :=
  runs_making

theorem runs_emit {x : Value} : Runs (build (.emit x)) env s r t ↔
    ∃ b, s.builder.current = some b ∧ (s.module.block b).isTerminated = false ∧
      r = s.module.values.size ∧ t = s.withModule (s.module.newValue b false x).2 := by
  rw [runs_build]
  simp only [Ssa.Build.emit, run_bind_ok, run_currentBlock, run_module]
  constructor
  · rintro ⟨_, ⟨b, _, ⟨hb, rfl⟩, _, _, ⟨rfl, rfl⟩, h⟩, rfl⟩
    split at h
    next => exact nomatch h
    next ho =>
      obtain ⟨rfl, rfl⟩ := run_making.mp h
      exact ⟨b, hb, by simpa using ho, rfl, rfl⟩
  · rintro ⟨b, hb, ho, rfl, rfl⟩
    refine ⟨_, ⟨b, _, ⟨hb, rfl⟩, _, _, ⟨rfl, rfl⟩, ?_⟩, rfl⟩
    rw [if_neg (by rw [ho]; exact Bool.false_ne_true)]
    exact run_making.mpr ⟨rfl, rfl⟩

theorem runs_alloca :
    Runs (build (.alloca ty name)) env s r t ↔
      ∃ b, s.builder.current = some b ∧ r = s.module.values.size ∧
        t = s.withModule (s.module.newValue
          ((s.module.func (s.module.block b).func).entry.getD b) false
          { op := .alloca, type := .pointer ty, aux := .name name }).2 := by
  rw [runs_build]
  simp only [Ssa.Build.alloca, run_bind_ok, run_currentBlock, run_module, run_making]
  constructor
  · rintro ⟨_, ⟨b, _, ⟨hb, rfl⟩, _, _, ⟨rfl, rfl⟩, rfl, rfl⟩, rfl⟩
    exact ⟨b, hb, rfl, rfl⟩
  · rintro ⟨b, hb, rfl, rfl⟩
    exact ⟨_, ⟨b, _, ⟨hb, rfl⟩, _, _, ⟨rfl, rfl⟩, rfl, rfl⟩, rfl⟩

theorem runs_newBlock : Runs (newBlock hint) env s d t ↔
    ∃ b, s.builder.current = some b ∧ d = s.module.blocks.size ∧
      t = s.withModule (s.module.newBlock (s.module.block b).func hint).2 := by
  simp only [newBlock, runs_bind, runs_module, runs_currentBlock]
  constructor
  · rintro ⟨b, _, ⟨hb, rfl⟩, _, _, ⟨rfl, rfl⟩, h⟩
    obtain ⟨rfl, rfl⟩ := runs_making.mp h
    exact ⟨b, hb, rfl, rfl⟩
  · rintro ⟨b, hb, rfl, rfl⟩
    exact ⟨b, s, ⟨hb, rfl⟩, _, _, ⟨rfl, rfl⟩, runs_making.mpr ⟨rfl, rfl⟩⟩

theorem runs_isTerminated {x : Bool} : Runs (build .isTerminated) env s x t ↔
    ∃ b, s.builder.current = some b ∧ x = (s.module.block b).isTerminated ∧ t = s := by
  rw [runs_build]
  simp only [Ssa.Build.isTerminated, run_bind_ok, run_currentBlock, run_module, run_pure_ok]
  constructor
  · rintro ⟨_, ⟨b, _, ⟨hb, rfl⟩, _, _, ⟨rfl, rfl⟩, rfl, rfl⟩, rfl⟩
    exact ⟨b, hb, rfl, rfl⟩
  · rintro ⟨b, hb, rfl, rfl⟩
    exact ⟨_, ⟨b, _, ⟨hb, rfl⟩, _, _, ⟨rfl, rfl⟩, rfl, rfl⟩, rfl⟩

theorem run_terminate :
    (Ssa.Build.terminate kind).run x = .ok (b, y) ↔
      x.current = some b ∧ (x.module.block b).isTerminated = false ∧
        y = { x with module := x.module.modifyBlock b fun c => { c with kind := kind } } := by
  simp only [Ssa.Build.terminate, run_bind_ok, run_currentBlock, run_module]
  constructor
  · rintro ⟨b, _, ⟨hb, rfl⟩, _, _, ⟨rfl, rfl⟩, h⟩
    split at h
    next => exact nomatch h
    next ho =>
      obtain ⟨_, _, rfl, rfl, rfl⟩ := h
      exact ⟨hb, by simpa using ho, rfl⟩
  · rintro ⟨hb, ho, rfl⟩
    refine ⟨b, x, ⟨hb, rfl⟩, _, _, ⟨rfl, rfl⟩, ?_⟩
    rw [if_neg (by rw [ho]; exact Bool.false_ne_true)]
    simp only [run_bind_ok, run_modifyModule, run_pure_ok]
    exact ⟨(), _, rfl, trivial, rfl⟩

/-! ## Ends of blocks -/

/-- A step that gives an end to the current block, which has none: an end of this kind, with these
successors and with the controls that `controls` makes of those that the block has. -/
structure Ending (x : Ssa.Build Unit) (kind : Ssa.BlockKind)
    (controls : List (Option ValueRef) → List (Option ValueRef)) (succs : List BlockRef) : Prop where
  isEnd : kind ≠ .plain ∨ succs ≠ []
  opened : ∀ {s u t}, x.run s = .ok (u, t) →
    ∃ b, s.current = some b ∧ (s.module.block b).isTerminated = false
  run : ∀ {s b}, s.current = some b → b < s.module.blocks.size →
    (s.module.block b).isTerminated = false → ∃ m, x.run s = .ok ((), { s with module := m }) ∧
      Module.Ends s.module b kind (controls (s.module.block b).controls) succs m

section

variable {kind : Ssa.BlockKind} {controls : List (Option ValueRef) → List (Option ValueRef)}
  {succs : List BlockRef}

theorem succs_nil_of_open {x : Ssa.Block} (h : x.isTerminated = false) : x.succs = [] := by
  unfold Ssa.Block.isTerminated at h
  simp_all

/-- First comes the kind of the end, then the rest of it. -/
theorem ending_terminate {k : BlockRef → Ssa.Build Unit} {g : BlockRef → Module → Module}
    (hk : ∀ b s, (k b).run s = .ok ((), { s with module := g b s.module }))
    (hend : kind ≠ .plain ∨ succs ≠ [])
    (hg : ∀ {m : Module} {b}, b < m.blocks.size → (m.block b).succs = [] →
      Module.Ends m b kind (controls (m.block b).controls) succs
        (g b (m.modifyBlock b fun x => { x with kind := kind }))) :
    Ending (Ssa.Build.terminate kind >>= k) kind controls succs where
  isEnd := hend
  opened h := by
    obtain ⟨b, u, hb, -⟩ := run_bind_ok.mp h
    obtain ⟨hcur, ho, -⟩ := run_terminate.mp hb
    exact ⟨b, hcur, ho⟩
  run hcur hb ho := by
    refine ⟨_, ?_, hg hb (succs_nil_of_open ho)⟩
    rw [StateT.run_bind, run_terminate.mpr ⟨hcur, ho, rfl⟩]
    exact hk ..

theorem ending_br (d : BlockRef) : Ending (.br d) .plain (fun cs => cs) [d] :=
  ending_terminate (g := fun b m => m.addSucc b d) (fun _ _ => rfl) (.inr (by simp)) fun hb hs => by
    have h := (ends_kind hb .plain).addSucc hb d
    rwa [hs] at h

theorem ending_condBr (c : ValueRef) (yes no : BlockRef) :
    Ending (.condBr c yes no) .branch (fun _ => [some c]) [yes, no] :=
  ending_terminate (g := fun b m => ((m.setControl b (some c)).addSucc b yes).addSucc b no)
    (fun _ _ => rfl) (.inl (by decide)) fun hb hs => by
    have h := (ends_kind hb .branch).setControl hb (some c)
    rw [hs] at h
    exact (h.addSucc hb yes).addSucc hb no

theorem ending_ret (x : Option ValueRef) : Ending (.ret x) .ret (fun _ => [x]) [] :=
  ending_terminate (g := fun b m => m.setControl b x) (fun _ _ => rfl) (.inl (by decide))
    fun hb hs => by
    have h := (ends_kind hb .ret).setControl hb x
    rwa [hs] at h

theorem ending_retVoid : Ending .retVoid .ret (fun cs => cs) [] :=
  ending_terminate (g := fun _ m => m) (fun _ _ => rfl) (.inl (by decide)) fun hb hs => by
    have h := ends_kind hb .ret
    rwa [hs] at h

end

/-! ## Operations -/

theorem runs_build_bind {β : Type} {x : Ssa.Build α} {g : α → Ssa.Build β} {y : β} :
    Runs (build (x >>= g)) env s y t ↔
      ∃ a u, Runs (build x) env s a u ∧ Runs (build (g a)) env u y t := by
  simp only [runs_build, run_bind_ok]
  constructor
  · rintro ⟨c, ⟨a, u, hx, hg⟩, rfl⟩
    exact ⟨a, { s with builder := u }, ⟨u, hx, rfl⟩, c, hg, rfl⟩
  · rintro ⟨a, _, ⟨u, hx, rfl⟩, c, hg, rfl⟩
    exact ⟨c, ⟨a, u, hx, hg⟩, rfl⟩

theorem runs_build_pure {x y : α} : Runs (build (pure x)) env s y t ↔ y = x ∧ t = s :=
  runs_build_iff rfl

/-- What only reads the state can be left out of a run. -/
theorem runs_build_read {β : Type} {x : Ssa.Build α} {g : α → Ssa.Build β} {y : β}
    (h : x.run s.builder = .ok (a, s.builder)) :
    Runs (build (x >>= g)) env s y t ↔ Runs (build (g a)) env s y t := by
  simp only [runs_build_bind, runs_build_iff h]
  constructor
  · rintro ⟨_, _, ⟨rfl, rfl⟩, hg⟩
    exact hg
  · exact fun hg => ⟨a, s, ⟨rfl, rfl⟩, hg⟩

theorem runs_load {p : ValueRef} : Runs (build (.load p)) env s r t ↔
    Runs (build (.emit { op := .load, type := (s.module.typeOf p).elem?.getD .void,
                         args := [some p] })) env s r t :=
  runs_build_read rfl

theorem runs_store {x p : ValueRef} {u : Unit} : Runs (build (.store x p)) env s u t ↔
    ∃ r, Runs (build (.emit { op := .store, type := .void, args := [some p, some x] }))
      env s r t := by
  simp only [Ssa.Build.store, runs_build_bind, runs_build_pure]
  constructor
  · rintro ⟨r, _, h, _, rfl⟩
    exact ⟨r, h⟩
  · rintro ⟨r, h⟩
    exact ⟨r, t, h, trivial, rfl⟩

theorem runs_binary {o : Ssa.Op} {x y : ValueRef} : Runs (build (.binary o x y)) env s r t ↔
    Runs (build (.emit { op := o, type := s.module.typeOf x, args := [some x, some y] }))
      env s r t :=
  runs_build_read rfl

theorem runs_unary {o : Ssa.Op} {x : ValueRef} : Runs (build (.unary o x)) env s r t ↔
    Runs (build (.emit { op := o, type := s.module.typeOf x, args := [some x] })) env s r t :=
  runs_build_read rfl

theorem runs_call {g : FuncRef} {xs : List ValueRef} : Runs (build (.call g xs)) env s r t ↔
    Runs (build (.emit { op := .call, type := (s.module.func g).sig.result,
                         args := xs.map some, aux := .callee g })) env s r t :=
  runs_build_read rfl

/-- Between integers of different widths there is one conversion, and none otherwise. -/
theorem runs_intCast {x : ValueRef} (h : Runs (build (.intCast x (.int k))) env s r t) :
    (r = x ∧ t = s ∧ (s.module.typeOf x).bits = k ∧ k ≠ 1) ∨
      ∃ o, Runs (build (.emit { op := o, type := .int k, args := [some x] })) env s r t ∧
        ((o = .trunc ∧ k < (s.module.typeOf x).bits) ∨
          (o = .zext ∧ (s.module.typeOf x).bits = 1 ∧ 1 ≤ k) ∨
          (o = .sext ∧ (s.module.typeOf x).bits < k ∧ (s.module.typeOf x).bits ≠ 1)) := by
  simp only [Ssa.Build.intCast, runs_build_bind, runs_typeOf] at h
  obtain ⟨_, _, ⟨rfl, hu⟩, h⟩ := h
  have hk : (Ssa.Ty.int k).bits = k := rfl
  rw [hu, hk] at h
  split at h
  next hlt => exact .inr ⟨_, h, .inl ⟨rfl, hlt⟩⟩
  next hle =>
    split at h
    next h1 =>
      have h1 : (s.module.typeOf x).bits = 1 := by simpa using h1
      exact .inr ⟨_, h, .inr (.inl ⟨rfl, h1, Nat.le_of_not_lt (h1 ▸ hle)⟩)⟩
    next h1 =>
      have h1 : (s.module.typeOf x).bits ≠ 1 := by simpa using h1
      split at h
      next hlt => exact .inr ⟨_, h, .inr (.inr ⟨rfl, hlt, h1⟩)⟩
      next hge =>
        obtain ⟨rfl, rfl⟩ := runs_build_pure.mp h
        have : (t.module.typeOf r).bits = k := by omega
        exact .inl ⟨rfl, rfl, this, this ▸ h1⟩

/-! ## Where lowering stands -/

/-- Values are appended to block `b` of function `f`, whose entry block is `e`. The functions of methods
are there, and every variable that is bound has a slot of its own. -/
structure Stands (f : FuncRef) (e b : BlockRef) (s : LoweringState) : Prop where
  current : s.builder.current = some b
  bound : b < s.module.blocks.size
  home : (s.module.block b).func = f
  known : f < s.module.funcs.size
  entry : (s.module.func f).entry = some e
  entryBound : e < s.module.blocks.size
  entryHome : (s.module.block e).func = f
  tidy : s.module.Tidy
  callable : ∀ d ∈ s.functions, d.func < s.module.funcs.size
  stored : ∀ id x, s.storage.lookup id = some x → x.direct = false ∧ s.module.isIntSlot x.addr
  apart : ∀ id id' x x', s.storage.lookup id = some x → s.storage.lookup id' = some x' →
    x.addr = x'.addr → id = id'

/-- Whether lowering stands in a block without an end. -/
def Open (b : BlockRef) (s : LoweringState) : Prop :=
  (s.module.block b).isTerminated = false

namespace Stands

theorem unique (h : Stands f e b s) (hd : s.builder.current = some d) : d = b := by
  have := hd.symm.trans h.current
  exact Option.some.inj this

theorem emit {x : Value} (h : Stands f e b s) (hr : Runs (build (.emit x)) env s r t) :
    Open b s ∧ r = s.module.values.size ∧
      ∃ m, t = s.withModule m ∧ Module.Emits s.module (some b) x m := by
  obtain ⟨d, hd, ho, rfl, rfl⟩ := runs_emit.mp hr
  obtain rfl := h.unique hd
  exact ⟨ho, rfl, _, rfl, emits_newValue ..⟩

theorem alloca (h : Stands f e b s) (hr : Runs (build (.alloca ty name)) env s r t) :
    r = s.module.values.size ∧ ∃ m, t = s.withModule m ∧
      Module.Emits s.module (some e) { op := .alloca, type := .pointer ty, aux := .name name } m := by
  obtain ⟨d, hd, rfl, rfl⟩ := runs_alloca.mp hr
  obtain rfl := h.unique hd
  refine ⟨rfl, _, rfl, ?_⟩
  rw [h.home, h.entry]
  exact emits_newValue ..

theorem newBlock (h : Stands f e b s) (hr : Runs (newBlock hint) env s d t) :
    d = s.module.blocks.size ∧ ∃ m, t = s.withModule m ∧ Module.AddsBlock s.module f m := by
  obtain ⟨c, hc, rfl, rfl⟩ := runs_newBlock.mp hr
  obtain rfl := h.unique hc
  refine ⟨rfl, _, rfl, ?_⟩
  rw [h.home]
  exact addsBlock_newBlock s.module f hint

/-- Growth of the module does not change where lowering stands. -/
theorem grow (h : Stands f e b s) (hg : Module.Grows s.module m) (ht : m.Tidy) :
    Stands f e b (s.withModule m) where
  current := h.current
  bound := Nat.lt_of_lt_of_le h.bound hg.blocks
  home := (hg.home b h.bound).trans h.home
  known := Nat.lt_of_lt_of_le h.known hg.funcs
  entry := (hg.func f h.known).entry.trans h.entry
  entryBound := Nat.lt_of_lt_of_le h.entryBound hg.blocks
  entryHome := (hg.home e h.entryBound).trans h.entryHome
  tidy := ht
  callable := fun d hd => Nat.lt_of_lt_of_le (h.callable d hd) hg.funcs
  stored := fun id x hx => ⟨(h.stored id x hx).1, hg.isIntSlot (h.stored id x hx).2⟩
  apart := h.apart

theorem isTerminated {x : Bool} (h : Stands f e b s) (hr : Runs (build .isTerminated) env s x t) :
    x = (s.module.block b).isTerminated ∧ t = s := by
  obtain ⟨d, hd, rfl, rfl⟩ := runs_isTerminated.mp hr
  obtain rfl := h.unique hd
  exact ⟨rfl, rfl⟩

end Stands

/-! ## What a piece of lowering does -/

/-- Block `d` of function `f` is still empty, and it is not the entry block. -/
structure Empty (f : FuncRef) (e d : BlockRef) (s : LoweringState) : Prop where
  bound : d < s.module.blocks.size
  home : (s.module.block d).func = f
  values : (s.module.block d).values = []
  opened : Open d s
  ne : d ≠ e

theorem Empty.stands (hempty : Empty f e d s) (h : Stands f e b s) :
    Stands f e d (s.standingAt d) :=
  { h with current := rfl, bound := hempty.bound, home := hempty.home }

theorem Empty.moved (h : Empty f e d s) : Empty f e d (s.standingAt b) :=
  ⟨h.bound, h.home, h.values, h.opened, h.ne⟩

/-- Code has been added from state `s`, where `b` was the current block, to state `t` in block `d`.
At most `n` slots have been added to the entry block. -/
structure Adds (f : FuncRef) (e b : BlockRef) (s : LoweringState) (d : BlockRef)
    (t : LoweringState) (n : Nat) : Prop where
  stands : Stands f e d t
  near : d = b ∨ s.module.blocks.size ≤ d
  grows : Module.Grows s.module t.module
  others : ∀ c < s.module.blocks.size, c ≠ e → c ≠ b →
    (t.module.block c).Like (s.module.block c)
  functions : t.functions = s.functions
  storage : ∀ id x, s.storage.lookup id = some x → t.storage.lookup id = some x
  slots : t.module.slotCount e ≤ s.module.slotCount e + n

namespace Adds

variable {u : LoweringState} {c : BlockRef} {n k : Nat}

theorem refl (h : Stands f e b s) : Adds f e b s b s 0 :=
  ⟨h, .inl rfl, .refl _, fun _ _ _ _ => .refl _, rfl, fun _ _ => id, Nat.le_refl _⟩

theorem trans (h : Adds f e b s d t n) (k' : Adds f e d t c u k) : Adds f e b s c u (n + k) := by
  refine ⟨k'.stands, ?_, h.grows.trans k'.grows, fun x hx hxe hxb => ?_,
    k'.functions.trans h.functions, fun id x hx => k'.storage id x (h.storage id x hx), ?_⟩
  · have := h.grows.blocks
    rcases k'.near with rfl | hc
    · exact h.near
    · exact .inr (Nat.le_trans this hc)
  · -- a block that was there before is neither the current block now nor a new one
    have hxd : x ≠ d := by
      rcases h.near with rfl | hd
      · exact hxb
      · exact fun hxd => Nat.lt_irrefl _ (Nat.lt_of_lt_of_le (hxd ▸ hx) hd)
    exact (k'.others x (Nat.lt_of_lt_of_le hx h.grows.blocks) hxe hxd).trans
      (h.others x hx hxe hxb)
  · have h₁ := h.slots
    have h₂ := k'.slots
    omega

/-- A block stays empty as long as lowering does not go there. -/
theorem empty (h : Adds f e b s d t n) (hempty : Empty f e c s) (hc : c ≠ b) : Empty f e c t := by
  have hlike := h.others c hempty.bound hempty.ne hc
  exact ⟨Nat.lt_of_lt_of_le hempty.bound h.grows.blocks, hlike.func.trans hempty.home,
    hlike.values.trans hempty.values, hlike.isTerminated.trans hempty.opened, hempty.ne⟩

theorem mono (h : Adds f e b s d t n) (hn : n ≤ k) : Adds f e b s d t k :=
  { h with slots := Nat.le_trans h.slots (Nat.add_le_add_left hn _) }

/-- A value outside of blocks or at the end of the current block, or a slot in the entry block. -/
theorem of_emits {place : Option BlockRef} {x : Value} {m : Module} (h : Stands f e b s)
    (he : Module.Emits s.module place x m) (hplace : ∀ c ∈ place, c = b ∨ c = e) (hphi : x.op ≠ .phi)
    (hopen : ∀ c ∈ place, (s.module.block c).isTerminated → m.isIntSlot s.module.values.size ∧
        (s.module.func (s.module.block c).func).entry = some c)
    (hn : place = some e → m.isIntSlot s.module.values.size → 1 ≤ n) :
    Adds f e b s b (s.withModule m) n := by
  have hg := Module.Grows.of_emits he hphi hopen
  refine ⟨h.grow hg (h.tidy.emits he), .inl rfl, hg, fun d _ hde hdb => ?_,
    rfl, fun _ _ => id, ?_⟩
  · have hd : place ≠ some d := fun hp => (hplace d hp).elim hdb hde
    show (m.block d).Like _
    rw [he.there hd]
    exact .refl _
  · show m.slotCount e ≤ _
    rw [he.slotCount h.entryBound (h.tidy.inside e h.entryBound)]
    split
    next hs => exact Nat.add_le_add_left (hn hs.1 hs.2) _
    next => exact Nat.le_add_right _ _

theorem of_addsBlock (h : Stands f e b s) (ha : Module.AddsBlock s.module f m) :
    Adds f e b s b (s.withModule m) 0 := by
  have hg := Module.Grows.of_addsBlock ha
  refine ⟨h.grow hg (h.tidy.addsBlock ha), .inl rfl, hg,
    fun d hd _ _ => ?_, rfl, fun _ _ => id, ?_⟩
  · show (m.block d).Like _
    rw [ha.old d hd]
    exact .refl _
  · refine Nat.le_of_eq (slotCount_congr (congrArg _ (ha.old e h.entryBound))
      fun v _ => ?_)
    show (m.value v).Like _
    unfold Module.value
    rw [ha.values]
    exact .refl _

theorem of_ends {controls : List (Option ValueRef)} (h : Stands f e b s)
    (he : Module.Ends s.module b kind controls succs m) (ho : Open b s)
    (hs : kind ≠ .plain ∨ succs ≠ []) : Adds f e b s b (s.withModule m) 0 := by
  have hg := Module.Grows.of_ends he ho
  refine ⟨h.grow hg (h.tidy.ends he hs), .inl rfl, hg,
    fun d _ _ hd => he.there d hd, rfl, fun _ _ => id, ?_⟩
  · exact Nat.le_of_eq (slotCount_congr (he.values_eq e) fun v _ => he.value v)

end Adds

/-! ## Variables -/

@[simp]
theorem runs_storageOf {x : Storage} :
    Runs (storageOf v) env s x t ↔ s.storage.lookup v.id = some x ∧ t = s := by
  simp only [storageOf, runs_bind, runs_get]
  constructor
  · rintro ⟨_, _, ⟨rfl, rfl⟩, h⟩
    split at h
    next y hy =>
      obtain ⟨rfl, rfl⟩ := runs_pure.mp h
      exact ⟨hy, rfl⟩
    next => exact absurd h runs_fail
  · rintro ⟨h, rfl⟩
    refine ⟨_, _, ⟨rfl, rfl⟩, ?_⟩
    rw [h]
    exact runs_pure.mpr ⟨rfl, rfl⟩

/-- A variable that is bound had no storage before. -/
theorem runs_bindVar {x : Storage} {u : Unit} :
    Runs (bind v x) env s u t ↔ s.storage.lookup v.id = none ∧
      t = { s with storage := (v.id, x) :: s.storage } := by
  simp only [Lowering.bind, runs_bind, runs_get]
  constructor
  · rintro ⟨w, u, ⟨hw, hu⟩, h⟩
    rw [hw, hu] at h
    split at h
    next => exact absurd h (by simp)
    next hn => exact ⟨Option.not_isSome_iff_eq_none.mp hn, runs_modify.mp h⟩
  · rintro ⟨h, rfl⟩
    refine ⟨_, _, ⟨rfl, rfl⟩, ?_⟩
    rw [h]
    simp

theorem lookup_cons_eq (id k : Nat) (x : α) (xs : List (Nat × α)) :
    List.lookup id ((k, x) :: xs) = if id = k then some x else xs.lookup id := by
  rw [List.lookup_cons]
  by_cases hid : id = k
  · simp [hid]
  · simp [hid, beq_eq_false_iff_ne.mpr hid]

theorem Stands.bind {x : Storage} {u : Unit} (h : Stands f e b s) (hr : Runs (bind v x) env s u t)
    (hd : x.direct = false) (hs : s.module.isIntSlot x.addr)
    (hnew : ∀ id y, s.storage.lookup id = some y → y.addr ≠ x.addr) :
    Adds f e b s b t 0 ∧ t.module = s.module := by
  obtain ⟨hn, rfl⟩ := runs_bindVar.mp hr
  have hlookup := fun id => lookup_cons_eq id v.id x s.storage
  refine ⟨⟨⟨h.current, h.bound, h.home, h.known, h.entry, h.entryBound, h.entryHome, h.tidy,
    h.callable, ?_, ?_⟩, .inl rfl, .refl _, fun _ _ _ _ => .refl _, rfl, fun id y hy => ?_,
    Nat.le_refl _⟩, rfl⟩
  · intro id y hy
    rw [hlookup] at hy
    split at hy
    · cases hy
      exact ⟨hd, hs⟩
    · exact h.stored id y hy
  · intro id id' y y' hy hy' haddr
    rw [hlookup] at hy hy'
    split at hy <;> split at hy'
    · simp_all
    · cases hy
      exact absurd haddr.symm (hnew id' y' hy')
    · cases hy'
      exact absurd haddr (hnew id y hy)
    · exact h.apart id id' y y' hy hy' haddr
  · rw [hlookup, if_neg fun hid => by rw [hid, hn] at hy; exact nomatch hy]
    exact hy

/-! ## What the steps leave behind -/

/-- A value has been appended to the current block. -/
structure Emitted (f : FuncRef) (e b : BlockRef) (s : LoweringState) (x : Value) (r : ValueRef)
    (t : LoweringState) : Prop where
  adds : Adds f e b s b t 0
  stays : Open b t
  ref : r = s.module.values.size
  size : t.module.values.size = s.module.values.size + 1
  new : (t.module.value r).Like x
  code : (t.module.block b).values = (s.module.block b).values ++ [r]

theorem Emitted.lt {x : Value} (h : Emitted f e b s x r t) :
    r < t.module.values.size := by
  rw [h.ref, h.size]
  exact Nat.lt_succ_self _

theorem Stands.emitted {x : Value} (h : Stands f e b s)
    (hr : Runs (build (.emit x)) env s r t) (hphi : x.op ≠ .phi) (hslot : x.op ≠ .alloca) :
    Emitted f e b s x r t := by
  obtain ⟨ho, rfl, m, rfl, ha⟩ := h.emit hr
  have hnot : m.isIntSlot s.module.values.size = false := by
    unfold Module.isIntSlot
    rw [ha.new.op]
    simp [hslot]
  refine ⟨Adds.of_emits h ha ?_ hphi ?_ (fun _ hs => ?_), ?_, rfl, ha.size, ha.new, ?_⟩
  · rintro _ ⟨⟩
    exact .inl rfl
  · rintro _ ⟨⟩ ht
    exact absurd (ho.symm.trans ht) Bool.false_ne_true
  · exact absurd (hnot.symm.trans hs) Bool.false_ne_true
  · show (m.block b).isTerminated = false
    rw [ha.block_eq]
    exact ho
  · show (m.block b).values = _
    rw [ha.here h.bound]

/-- A slot has been put into the entry block. -/
structure Slotted (f : FuncRef) (e b : BlockRef) (s : LoweringState) (bits : Nat) (r : ValueRef)
    (t : LoweringState) : Prop where
  adds : Adds f e b s b t 1
  stays : ∀ c, Open c s → Open c t
  ref : r = s.module.values.size
  size : t.module.values.size = s.module.values.size + 1
  slot : t.module.isIntSlot r
  type : t.module.typeOf r = .pointer (.int bits)
  code : (t.module.block e).values = (s.module.block e).values ++ [r]
  other : ∀ c, c ≠ e → t.module.block c = s.module.block c

theorem Slotted.lt {bits : Nat} (h : Slotted f e b s bits r t) :
    r < t.module.values.size := by
  rw [h.ref, h.size]
  exact Nat.lt_succ_self _

theorem Stands.slotted {bits : Nat} (h : Stands f e b s)
    (hr : Runs (build (.alloca (.int bits) name)) env s r t) (hbits : bits ≤ 64) :
    Slotted f e b s bits r t := by
  obtain ⟨rfl, m, rfl, ha⟩ := h.alloca hr
  have hslot : m.isIntSlot s.module.values.size := by
    unfold Module.isIntSlot
    rw [ha.new.op, ha.new.args, ha.new.type]
    simp [hbits]
  have hentry : (s.module.func (s.module.block e).func).entry = some e := by
    rw [h.entryHome, h.entry]
  refine ⟨Adds.of_emits h ha ?_ (by simp) ?_ fun _ _ => Nat.le_refl _, fun c hc => ?_, rfl, ha.size,
    hslot, ha.new.type, ?_, fun c hc => ha.there fun h => hc (Option.some.inj h).symm⟩
  · rintro _ ⟨⟩
    exact .inr rfl
  · rintro _ ⟨⟩ _
    exact ⟨hslot, hentry⟩
  · show (m.block c).isTerminated = false
    rw [ha.block_eq]
    exact hc
  · show (m.block e).values = _
    rw [ha.here h.entryBound]

/-- A constant has been made. -/
structure Consted (f : FuncRef) (e b : BlockRef) (s : LoweringState) (ty : Ssa.Ty) (n : Int)
    (r : ValueRef) (t : LoweringState) : Prop where
  adds : Adds f e b s b t 0
  block : ∀ c, t.module.block c = s.module.block c
  ref : r = s.module.values.size
  size : t.module.values.size = s.module.values.size + 1
  new : t.module.value r = { op := .constInt, type := ty, auxInt := n }

theorem Consted.lt {n : Int} (h : Consted f e b s ty n r t) : r < t.module.values.size := by
  rw [h.ref, h.size]
  exact Nat.lt_succ_self _

theorem Stands.consted {n : Int} (h : Stands f e b s)
    (hr : Runs (build (.constInt ty n)) env s r t) : Consted f e b s ty n r t := by
  obtain ⟨rfl, rfl⟩ := runs_constInt.mp hr
  have ha := emits_addConst s.module { op := .constInt, type := ty, auxInt := n }
  refine ⟨Adds.of_emits h ha ?_ (by simp) ?_ fun h => (nomatch h), fun _ => rfl, rfl, ha.size,
    (value_addConst ..).trans (if_pos rfl)⟩
  · rintro _ ⟨⟩
  · rintro _ ⟨⟩

/-- A block has been made. -/
structure Blocked (f : FuncRef) (e b : BlockRef) (s : LoweringState) (d : BlockRef)
    (t : LoweringState) : Prop where
  adds : Adds f e b s b t 0
  ref : d = s.module.blocks.size
  empty : Empty f e d t
  old : ∀ c < s.module.blocks.size, t.module.block c = s.module.block c

theorem Blocked.ne_of_lt (h : Blocked f e b s d t) (hc : c < s.module.blocks.size) : d ≠ c :=
  h.ref ▸ (Nat.ne_of_lt hc).symm

theorem Stands.blocked (h : Stands f e b s) (hr : Runs (Lowering.newBlock hint) env s d t) :
    Blocked f e b s d t := by
  obtain ⟨rfl, m, rfl, ha⟩ := h.newBlock hr
  refine ⟨Adds.of_addsBlock h ha, rfl, ⟨?_, ha.new.func, ha.new.values, ?_, ?_⟩, ha.old⟩
  · show s.module.blocks.size < m.blocks.size
    rw [ha.size]
    exact Nat.lt_succ_self _
  · exact ha.new.isTerminated
  · exact (Nat.ne_of_lt h.entryBound).symm

/-- The current block has been given an end. -/
structure Ended (f : FuncRef) (e b : BlockRef) (s : LoweringState) (kind : Ssa.BlockKind)
    (controls : List (Option ValueRef)) (succs : List BlockRef) (t : LoweringState) : Prop where
  adds : Adds f e b s b t 0
  closed : (t.module.block b).isTerminated
  ends : Module.Ends s.module b kind controls succs t.module

theorem Stands.ended {x : Ssa.Build Unit} {u : Unit} (h : Stands f e b s)
    (hx : Ending x kind controls succs) (hr : Runs (build x) env s u t) :
    Ended f e b s kind (controls []) succs t := by
  obtain ⟨y, hrun, rfl⟩ := runs_build.mp hr
  obtain ⟨d, hd, ho⟩ := hx.opened hrun
  obtain rfl := h.unique hd
  obtain ⟨m, hm, he⟩ := hx.run hd h.bound ho
  cases hm.symm.trans hrun
  rw [h.tidy.bare d h.bound ho] at he
  exact ⟨Adds.of_ends h he ho hx.isEnd, he.isTerminated hx.isEnd, he⟩

/-! ## What is given to instances -/

/-- Something that is given where instances are looked for. -/
class Known (p : Prop) : Prop where
  holds : p

section

variable {P Q : List BlockRef}

/-- A block is among those that wait, and `Q` are the others. -/
class Picks (b : BlockRef) (P : List BlockRef) (Q : outParam (List BlockRef)) : Prop where
  perm : P.Perm (b :: Q)

instance : Picks b (b :: P) P :=
  ⟨.refl _⟩

instance {c : BlockRef} [h : Picks b P Q] : Picks b (c :: P) (c :: Q) :=
  ⟨(h.perm.cons c).trans (.swap ..)⟩

instance : Picks b ((some b).toList ++ P) P :=
  ⟨.refl _⟩

instance {R : List BlockRef} [h : Picks b P Q] : Picks b (R ++ P) (R ++ Q) :=
  ⟨(h.perm.append_left R).trans List.perm_middle⟩

end

end Lowering

end SsaCompiler
