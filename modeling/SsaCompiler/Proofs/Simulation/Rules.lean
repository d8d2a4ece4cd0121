import SsaCompiler.Proofs.Simulation.Operation

/-!
# Rules for following an evaluation

`Sim` says of a piece of lowering that the machine follows an evaluation when it executes the code.
What is known in front of the code and behind it is an assertion about the state of lowering, the
state of evaluation and the state of the machine. There is one rule for every step of lowering, and
one for sequences.

The machine need not stand where lowering does: when it has jumped, it waits at the start of a block
until lowering gets there, and what is lowered in between is skipped.
-/

namespace SsaCompiler.Simulation

open Ssa (ValueRef BlockRef)
open Core (Store Locals Eval)
open Lowering (Empty Extends Stage Steps Expands Known)
open Machine

variable {C : Context} {A : Act} {depth : Nat} {a b d : BlockRef} {s t : LoweringState}
  {σ σ' : Store} {w w' : World} {fr fr' : Frame} {z : State} {base m n k : Nat}
  {r v x y slot : ValueRef} {p q : Primitive} {i j : Int} {α β γ δ : Type} {vr : Core.Var}

/-! ## Conditions -/

/-- Something about a state of lowering and evaluation, and about the innermost frame. -/
abbrev Condition := LoweringState → Store → World → Frame → Prop

/-- Both of two conditions. -/
def Condition.and (F G : Condition) : Condition :=
  fun s σ w fr => F s σ w fr ∧ G s σ w fr

/-- One condition follows from another. -/
def Condition.Entails (F G : Condition) : Prop :=
  ∀ {s σ w fr}, F s σ w fr → G s σ w fr

variable {F G H : Condition}

/-- Code does not change whether a condition holds. -/
class Lasting (base : Nat) (F : Condition) : Prop where
  keep : ∀ {s σ w fr t σ' w' fr'}, F s σ w fr → Extends s t → Kept s base w fr w' fr' → F t σ' w' fr'

/-- Code does not change whether a condition holds, as long as it gives no variable its first
value. -/
class Stable (base : Nat) (F : Condition) : Prop where
  keep : ∀ {s σ w fr t σ' w' fr'}, F s σ w fr → Extends s t → Kept s base w fr w' fr' →
    (∀ id, (σ'.locals id).isSome → (σ.locals id).isSome) → F t σ' w' fr'

/-- Code does not change whether a condition holds, as long as all cells and variables keep their
values. -/
class Steady (base : Nat) (F : Condition) : Prop where
  keep : ∀ {s σ w fr t w' fr'}, F s σ w fr → Extends s t → Kept s base w fr w' fr' →
    (∀ k bits, w'.memory.content k bits = w.memory.content k bits) → F t σ w' fr'

instance [h : Lasting base F] : Stable base F :=
  ⟨fun hF hext hk _ => h.keep hF hext hk⟩

instance [h : Stable base F] : Steady base F :=
  ⟨fun hF hext hk _ => h.keep hF hext hk fun _ => id⟩

instance [hF : Stable base F] [hG : Stable base G] : Stable base (F.and G) :=
  ⟨fun h hext hk hdom => ⟨hF.keep h.1 hext hk hdom, hG.keep h.2 hext hk hdom⟩⟩

instance [hF : Steady base F] [hG : Steady base G] : Steady base (F.and G) :=
  ⟨fun h hext hk hc => ⟨hF.keep h.1 hext hk hc, hG.keep h.2 hext hk hc⟩⟩

/-- A value of the code so far denotes an integer. -/
def Den (C : Context) (v : ValueRef) (p : Primitive) (i : Int) : Condition :=
  fun s _ _ fr => v < s.module.values.size ∧ Denotes C fr.regs v p i

instance : Lasting base (Den C v p i) :=
  ⟨fun h hext hk => ⟨Nat.lt_of_lt_of_le h.1 hext.grows.values, hk.denotes h.2 h.1⟩⟩

/-- A slot of the entry block that belongs to none of the variables with a value. -/
structure Temp (C : Context) (A : Act) (slot : ValueRef) (bits : Nat) (s : LoweringState) (σ : Store)
    (w : World) (fr : Frame) : Prop where
  bound : A.entry < s.module.blocks.size
  lt : slot < s.module.values.size
  mem : slot ∈ (s.module.block A.entry).values
  isSlot : C.module.isIntSlot slot
  type : C.module.typeOf slot = .pointer (.int bits)
  free : ∀ id, (σ.locals id).isSome →
    ∃ st, s.storage.lookup id = some st ∧ st.addr ≠ slot

instance {slot : ValueRef} {bits : Nat} : Stable base (Temp C A slot bits) where
  keep h hext _ hdom := by
    refine ⟨Nat.lt_of_lt_of_le h.bound hext.grows.blocks, Nat.lt_of_lt_of_le h.lt hext.grows.values,
      mem_code hext.grows h.bound h.mem, h.isSlot, h.type, fun id hid => ?_⟩
    obtain ⟨st, hst, hne⟩ := h.free id (hdom id hid)
    exact ⟨st, hext.storage id st hst, hne⟩

/-- A slot holds an integer. -/
def Content (slot : ValueRef) (p : Primitive) (i : Int) : Condition :=
  fun s _ w fr => slot < s.module.values.size ∧ p.Holds i ∧
    w.memory.content (cellOf fr.regs slot) p.bits = Word.ofInt i

instance {slot : ValueRef} : Steady base (Content slot p i) where
  keep h hext hk hc := by
    refine ⟨Nat.lt_of_lt_of_le h.1 hext.grows.values, h.2.1, ?_⟩
    rw [cellOf_congr (hk.regs slot h.1), hc]
    exact h.2.2

/-- A variable has its storage. -/
def Stored (id : Nat) (st : Storage) : Condition :=
  fun s _ _ _ => s.storage.lookup id = some st

instance {id : Nat} {st : Storage} : Lasting base (Stored id st) :=
  ⟨fun h hext _ => hext.storage id st h⟩

/-- What has been there since some state. -/
def Since (base : Nat) (s : LoweringState) (w : World) (fr : Frame) : Condition :=
  fun t _ w' fr' => Extends s t ∧ Kept s base w fr w' fr'

instance : Lasting base (Since base s w fr) :=
  ⟨fun h hext hk => ⟨h.1.trans hext, h.2.trans (hk.since h.1.grows)⟩⟩

/-- Only variables that had a value in some state have one. -/
def Within (σ : Store) : Condition :=
  fun _ σ' _ _ => ∀ id, (σ'.locals id).isSome → (σ.locals id).isSome

instance : Stable base (Within σ) :=
  ⟨fun h _ _ hdom id hid => h id (hdom id hid)⟩

/-! ## Assertions -/

/-- Where code is executed: in which function, for which callers, and how many further calls there
may be. -/
structure Site (C : Context) (depth : Nat) where
  env : Env
  act : Act
  callers : List Frame
  memory : Memory
  deep : act.depth + depth = maxDepth

variable {S : Site C depth} {P : List BlockRef}

/-- Something about states of lowering, evaluation and machine. -/
abbrev Assertion := LoweringState → Store → State → Prop

/-- The machine stands where lowering does, and has left the objects of the callers alone. There are
`n` units to spare. -/
inductive Now (S : Site C depth) (F : Condition) (n : Nat) (s : LoweringState) (σ : Store) :
    State → Prop where
  | intro {b : BlockRef} {w : World} {fr : Frame} (rel : Rel C S.act b s n σ w fr)
      (keeps : Memory.Keeps S.act.base S.memory w.memory) (holds : F s σ w fr) :
      Now S F n s σ ⟨w, fr :: S.callers⟩

/-- The machine stands at the start of a block. -/
def Waiting (S : Site C depth) (a : BlockRef) (F : Condition) (n : Nat) : Assertion :=
  fun s => Now S F n (s.standingAt a)

theorem Now.imp (h : Now S F n s σ z) (hF : F.Entails G) (hk : k ≤ n) : Now S G k s σ z := by
  obtain ⟨rel, keeps, holds⟩ := h
  exact ⟨rel.mono hk, keeps, hF holds⟩

/-- A block waits. -/
class Waits (a : BlockRef) (P : List BlockRef) : Prop where
  mem : a ∈ P

instance : Waits a (a :: P) := ⟨List.mem_cons_self⟩

instance [h : Waits a P] : Waits a (b :: P) := ⟨List.mem_cons_of_mem b h.mem⟩

instance : Waits a ((some a).toList ++ P) := ⟨List.mem_cons_self⟩

instance {Q : List BlockRef} [h : Waits a P] : Waits a (Q ++ P) := ⟨List.mem_append_right Q h.mem⟩

/-! ## Following -/

/-- Wherever a piece of lowering is carried out in front of which the blocks of `P` wait, the machine
follows an evaluation when it executes the code: if `I` holds in front of it, `Q` holds behind it. -/
def Sim (S : Site C depth) (P : List BlockRef) (I : Assertion) (x : Lowering α) (ev : Eval β)
    (Q : α → β → Assertion) : Prop :=
  ∀ ⦃s σ z r t c⦄, Stage S.act.func S.act.entry c P s → s.functions = C.functions → I s σ z →
    Runs x S.env s r t → C.Takes t →
    After C z ev σ fun a σ' z' => Q r a t σ' z'

namespace Sim

variable {I I' : Assertion} {cx cx' : Lowering α} {f : α → Lowering β} {ev : Eval γ} {g : γ → Eval δ}
  {M M' : α → γ → Assertion} {Q : β → δ → Assertion} {P₁ : α → List BlockRef}

theorem bind [hs : Steps S.env C.functions P cx P₁ k]
    [hf : ∀ r, Expands S.env C.functions (P₁ r) (f r)] (hx : Sim S P I cx ev M)
    (h : ∀ r a, Sim S (P₁ r) (M r a) (f r) (g a) Q) : Sim S P I (cx >>= f) (ev >>= g) Q := by
  intro s σ z r' t c hstage hfs hI hr hg
  obtain ⟨r, u, hr, hr'⟩ := runs_bind.mp hr
  obtain ⟨d, hl⟩ := hs.leads hstage hfs hr
  have hfs' := hl.ext.functions.trans hfs
  have hext := (hf r).ext hl.stage hfs' hr'
  exact (hx hstage hfs hI hr (hext.grows.trans hg)).bind fun a σ' z' hM =>
    h r a hl.stage hfs' hM hr' hg

/-- A step of lowering to which no step of evaluation belongs. -/
theorem next {M : α → Unit → Assertion} {ev : Eval δ} [Steps S.env C.functions P cx P₁ k]
    [∀ r, Expands S.env C.functions (P₁ r) (f r)] (hx : Sim S P I cx (Pure.pure ()) M)
    (h : ∀ r, Sim S (P₁ r) (M r ()) (f r) ev Q) : Sim S P I (cx >>= f) ev Q :=
  bind (g := fun _ => ev) hx fun r _ => h r

theorem seq {Q : β → γ → Assertion} [Steps S.env C.functions P cx P₁ k]
    [∀ r, Expands S.env C.functions (P₁ r) (f r)] (hx : Sim S P I cx ev M)
    (h : ∀ r a, Sim S (P₁ r) (M r a) (f r) (Pure.pure a) Q) : Sim S P I (cx >>= f) ev Q := by
  rw [← bind_pure ev]
  exact bind hx h

/-- A last step of evaluation to which no step of lowering belongs. -/
theorem map {g : γ → δ} {Q : α → δ → Assertion} (h : Sim S P I cx ev fun r a => Q r (g a)) :
    Sim S P I cx (do return g (← ev)) Q :=
  fun _ _ _ _ _ _ hstage hfs hI hr hg =>
    (h hstage hfs hI hr hg).bind fun _ _ _ hq => After.pure hq

theorem mono (h : Sim S P I cx ev M) (hI : ∀ {s σ z}, I' s σ z → I s σ z)
    (hM : ∀ {r a s σ z}, M r a s σ z → M' r a s σ z) : Sim S P I' cx ev M' :=
  fun _ _ _ _ _ _ hstage hfs hI' hr hg =>
    (h hstage hfs (hI hI') hr hg).mono fun _ _ _ => hM

/-- Only the runs of the code matter. -/
theorem of_runs (h : Sim S P I cx ev M)
    (hruns : ∀ {s r t}, Runs cx' S.env s r t → Runs cx S.env s r t) : Sim S P I cx' ev M :=
  fun _ _ _ _ _ _ hstage hfs hI hr hg => h hstage hfs hI (hruns hr) hg

theorem pure {r : α} {a : γ} (h : ∀ {s σ z}, I s σ z → M r a s σ z) :
    Sim S P I (Pure.pure r) (Pure.pure a) M := by
  intro s σ z _ _ c hstage hfs hI hr hg
  obtain ⟨rfl, rfl⟩ := runs_pure.mp hr
  exact After.pure (h hI)

theorem gone {a : γ} (h : ∀ {s σ z r t}, I s σ z → M r a t σ z) : Sim S P I cx (Pure.pure a) M :=
  fun _ _ _ _ _ _ _ _ hI _ _ => After.pure (h hI)

theorem stuck : Sim S P I cx Eval.stuck M :=
  fun _ _ _ _ _ _ _ _ _ _ _ => After.stuck

theorem given {φ : Prop} (h : φ → Sim S P I cx ev M) :
    Sim S P (fun s σ z => I s σ z ∧ φ) cx ev M :=
  fun _ _ _ _ _ _ hstage hfs hI hr hg => h hI.2 hstage hfs hI.1 hr hg

theorem spend [hF : Stable S.act.base F] (h : Sim S P (Now S F (n + k)) cx ev M) :
    Sim S P (Now S F n) cx (do Eval.spend k; ev) M := by
  rintro s σ _ r t c hstage hfs ⟨rel, keeps, holds⟩ hr hg
  refine After.bind (Q := fun _ σ' z' => Now S F (n + k) s σ' z') (After.spend fun hk => ?_)
    fun _ σ' z' hnow => h hstage hfs hnow hr hg
  exact ⟨rel.spend hk, keeps, hF.keep holds (.refl s) (.refl ..) fun _ => id⟩

/-- What the code gives does not matter. -/
theorem giving {a : γ} {b : δ} {Q : α → δ → Assertion} (h : Sim S P I cx (Pure.pure a) M)
    (hQ : ∀ {r s σ z}, M r a s σ z → Q r b s σ z) : Sim S P I cx (Pure.pure b) Q := by
  intro s σ z r t c hstage hfs hI hr hg
  obtain ⟨z', hz, hM⟩ := (After.of_ok rfl).mp (h hstage hfs hI hr hg)
  exact (After.of_ok rfl).mpr ⟨z', hz, hQ hM⟩

theorem silent {a : γ} (h : Sim S P I cx (Pure.pure a) M) :
    Sim S P I cx (Pure.pure ()) fun r _ => M r a :=
  h.giving id

theorem opened {f : Bool → Lowering α} (h : Sim S P (Now S F m) (f false) ev M) :
    Sim S P (Now S F m) (Lowering.build .isTerminated >>= f) ev M := by
  rintro s σ _ r t c hstage hfs ⟨rel, keeps, holds⟩ hr hg
  obtain ⟨x, u, hx, hr⟩ := runs_bind.mp hr
  obtain ⟨rfl, rfl⟩ := rel.stands.isTerminated hx
  rw [show (u.module.block _).isTerminated = false from rel.opened] at hr
  exact h hstage hfs ⟨rel, keeps, holds⟩ hr hg

theorem typeOf {f : Ssa.Ty → Lowering α} (hv : F.Entails (Den C v p i))
    (h : Sim S P (Now S F m) (f p.machineType) ev M) :
    Sim S P (Now S F m) (Lowering.build (.typeOf v) >>= f) ev M := by
  rintro s σ _ r t c hstage hfs ⟨rel, keeps, holds⟩ hr hg
  obtain ⟨ty, u, hty, hr⟩ := runs_bind.mp hr
  obtain ⟨rfl, rfl⟩ := Lowering.runs_typeOf.mp hty
  obtain ⟨hlt, hden⟩ := hv holds
  rw [← rel.typeOf hlt, hden.type] at hr
  exact h hstage hfs ⟨rel, keeps, holds⟩ hr hg

end Sim

/-! ## Code in the block of the machine -/

/-- The machine has come behind some code that leaves alone what was there. -/
inductive Comes (S : Site C depth) (s : LoweringState) (σ : Store) (w : World) (fr : Frame)
    (t : LoweringState) (n : Nat) (G : Condition) (σ' : Store) : State → Prop where
  | intro {d : BlockRef} {w' : World} {fr' : Frame} (rel : Rel C S.act d t n σ' w' fr')
      (kept : Kept s S.act.base w fr w' fr')
      (dom : ∀ id, (σ'.locals id).isSome → (σ.locals id).isSome)
      (holds : G t σ' w' fr') : Comes S s σ w fr t n G σ' ⟨w', fr' :: S.callers⟩

section

variable {cx : Lowering α} {ev : Eval γ} {P₁ : α → List BlockRef} [Stable S.act.base F]

theorem Sim.of_rel {G : α → γ → Condition} [hs : Steps S.env C.functions P cx P₁ k]
    (hF : H.Entails F) (h : ∀ {b s σ w fr r t}, Rel C S.act b s m σ w fr → H s σ w fr →
      Runs cx S.env s r t → C.Takes t →
      After C ⟨w, fr :: S.callers⟩ ev σ fun a => Comes S s σ w fr t n (G r a)) :
    Sim S P (Now S H m) cx ev fun r a => Now S (F.and (G r a)) n := by
  rintro s σ _ r t c hstage hfs ⟨rel, keeps, holds⟩ hr hg
  obtain ⟨d, hl⟩ := hs.leads hstage hfs hr
  refine (h rel holds hr hg).mono ?_
  rintro a σ' _ ⟨rel', kept, dom, holds'⟩
  exact ⟨rel', keeps.trans kept.memory, Stable.keep (hF holds) hl.ext kept dom, holds'⟩

/-- Code to which no step of evaluation belongs. -/
theorem Sim.move {G : α → Condition} [Steps S.env C.functions P cx P₁ k]
    (hF : H.Entails F) (h : ∀ {b s σ w fr r t}, Rel C S.act b s m σ w fr → H s σ w fr →
      Runs cx S.env s r t → C.Takes t →
      ∃ w' fr', Moves C s S.act.base S.callers w fr w' fr' ∧ Rel C S.act b t n σ w' fr' ∧
        G r t σ w' fr') :
    Sim S P (Now S H m) cx (Pure.pure ()) fun r _ => Now S (F.and (G r)) n :=
  .of_rel hF fun rel holds hr hg => by
    obtain ⟨w', fr', hm, rel', holds'⟩ := h rel holds hr hg
    exact After.head hm.reaches (After.pure ⟨rel', hm.kept, fun _ => id, holds'⟩)

theorem sim_const {ty : Ssa.Ty} (hty : ty = p.machineType) (hp : p.isPlain) (hi : p.Holds i) :
    Sim S P (Now S F n) (Lowering.build (.constInt ty i)) (pure ())
      fun r _ => Now S (F.and (Den C r p i)) n :=
  .move id fun rel _ hr hg => by
    have g := rel.stands.consted hr
    obtain ⟨rel', hreads, htype⟩ := rel.const g hg
    refine ⟨_, _, .refl _ _, rel', g.lt, ?_, hi, htype.trans hty⟩
    rw [hty, Primitive.machineType_of_isPlain hp] at hreads
    rw [← Word.wrap_ofInt_of_holds hp hi]
    exact hreads

theorem sim_alloca {bits : Nat} {name : String} [hb : Known (bits ≤ 64)] :
    Sim S P (Now S F n) (Lowering.build (.alloca (.int bits) name)) (pure ())
      fun r _ => Now S (F.and (Temp C S.act r bits)) n :=
  .move id fun rel _ hr hg => by
    have g := rel.stands.slotted hr hb.holds
    obtain ⟨⟨w', fr', hm, rel'⟩, hmem, hslot, hty⟩ := rel.slot g hg
    refine ⟨w', fr', hm, rel', rel'.stands.entryBound, g.lt, hmem, hslot, hty, fun id hid => ?_⟩
    obtain ⟨i, hi⟩ := Option.isSome_iff_exists.mp hid
    obtain ⟨st, hst, -⟩ := rel.vars id i hi
    exact ⟨st, g.adds.storage id st hst, g.unused rel.stands hst⟩

theorem sim_store (hp : p.isPlain) (hv : F.Entails (Den C v p i))
    (hs : F.Entails (Temp C S.act slot p.bits)) :
    Sim S P (Now S F (n + 1)) (Lowering.build (.store v slot)) (pure ())
      fun _ _ => Now S (F.and (Content slot p i)) n :=
  .move id fun {_ s σ _ _ _ _} rel holds hr hg => by
    obtain ⟨m, g⟩ := rel.stands.store hr
    have temp := hs holds
    obtain ⟨-, den⟩ := hv holds
    have hl : ∀ id x, σ.locals id = some x → ∃ st, s.storage.lookup id = some st ∧
        (st.addr = slot ∧ x = i ∧ C.setting.type id = p ∧ slot ∈ (s.module.block S.act.entry).values ∨
          st.addr ≠ slot ∧ σ.locals id = some x) := fun id x hx => by
      obtain ⟨st, hst, hne⟩ := temp.free id (by rw [hx]; rfl)
      exact ⟨st, hst, .inr ⟨hne, hx⟩⟩
    obtain ⟨w', fr', hm, rel', content⟩ := rel.store g hg
      (mem_ready rel.grows rel.stands.entryBound temp.mem) temp.isSlot temp.type hp den hl
    exact ⟨w', fr', hm, rel', Nat.lt_of_lt_of_le temp.lt g.adds.grows.values, den.holds, content⟩

theorem Rel.loadSlot {env : Env} (callers : List Frame) (h : Rel C A b s (n + 1) σ w fr)
    (hp : p.isPlain) (hmem : slot ∈ (s.module.block A.entry).values)
    (hslot : C.module.isIntSlot slot) (htype : C.module.typeOf slot = .pointer (.int p.bits))
    (hi : p.Holds i) (hcontent : w.memory.content (cellOf fr.regs slot) p.bits = Word.ofInt i)
    (hr : Runs (Lowering.build (.load slot)) env s r t) (hg : C.Takes t) :
    ∃ w' fr', Moves C s A.base callers w fr w' fr' ∧ Rel C A b t n σ w' fr' ∧
      Den C r p i t σ w' fr' := by
  have g := h.stands.load hr
  have hload : (s.module.typeOf slot).elem?.getD .void = .int p.bits := by
    rw [← h.typeOf (h.stands.tidy.inside A.entry h.stands.entryBound slot hmem), htype]
    rfl
  obtain ⟨fr', hm, hrel, hreads⟩ := h.load g hg (mem_ready h.grows h.stands.entryBound hmem) hslot
    htype hload
  refine ⟨w.tick, fr', hm, hrel, g.lt, hcontent ▸ hreads, hi, ?_⟩
  rw [typeOf_emitted g hg, Primitive.machineType_of_isPlain hp]
  exact hload

theorem sim_load (hp : p.isPlain) (hF : H.Entails F) (hc : H.Entails (Content slot p i))
    (hs : H.Entails (Temp C S.act slot p.bits)) :
    Sim S P (Now S H (n + 1)) (Lowering.build (.load slot)) (pure ())
      fun r _ => Now S (F.and (Den C r p i)) n :=
  .move hF fun rel holds hr hg => by
    have temp := hs holds
    obtain ⟨-, hholds, hcontent⟩ := hc holds
    exact rel.loadSlot _ hp temp.mem temp.isSlot temp.type hholds hcontent hr hg

theorem sim_storageOf :
    Sim S P (Now S F n) (Lowering.storageOf vr) (pure ())
      fun st _ => Now S (F.and (Stored vr.id st)) n :=
  .move id fun rel _ hr _ => by
    obtain ⟨hst, rfl⟩ := Lowering.runs_storageOf.mp hr
    exact ⟨_, _, .refl _ _, rel, hst⟩

theorem sim_read {st : Storage} (hst : F.Entails (Stored vr.id st)) :
    Sim S P (Now S F (n + 1)) (Lowering.readStorage st) (Eval.read vr)
      fun r i => Now S (F.and (Den C r (C.setting.type vr.id) i)) n :=
  .of_rel id fun rel holds hr hg => After.read fun i hi => by
    have hst := hst holds
    rw [Lowering.readStorage, (rel.stands.stored _ _ hst).1] at hr
    obtain ⟨st', hst', hmem, htype, hplain, hholds, hval⟩ := rel.vars _ _ hi
    obtain rfl : st' = st := Option.some.inj (hst'.symm.trans hst)
    obtain ⟨w', fr', hm, rel', hden⟩ := rel.loadSlot S.callers hplain hmem
      (rel.isIntSlot_of_stored hst) htype hholds hval hr hg
    exact ⟨_, hm.reaches, rel', hm.kept, fun _ => id, hden⟩

theorem sim_update {st : Storage} (hst : F.Entails (Stored vr.id st))
    (hv : F.Entails (Den C v (C.setting.type vr.id) i)) :
    Sim S P (Now S F (n + 1)) (Lowering.build (.store v st.addr)) (Eval.update vr i)
      fun _ _ => Now S (F.and (Stored vr.id st)) n :=
  .of_rel id fun {_ s σ _ _ _ _} rel holds hr hg => After.update fun j hj => by
    have hst := hst holds
    obtain ⟨m, g⟩ := rel.stands.store hr
    obtain ⟨st', hst', hmem, htype, hplain, -, -⟩ := rel.vars _ _ hj
    obtain rfl : st' = st := Option.some.inj (hst'.symm.trans hst)
    have hl : ∀ id x, σ.locals.set vr.id i id = some x → ∃ st, s.storage.lookup id = some st ∧
        (st.addr = st'.addr ∧ x = i ∧ C.setting.type id = C.setting.type vr.id ∧
          st'.addr ∈ (s.module.block S.act.entry).values ∨
        st.addr ≠ st'.addr ∧ σ.locals id = some x) := by
      intro id x hx
      unfold Locals.set at hx
      by_cases hid : id = vr.id
      · rw [if_pos hid] at hx
        exact ⟨st', hid ▸ hst, .inl ⟨rfl, (Option.some.inj hx).symm, by rw [hid], hmem⟩⟩
      · rw [if_neg hid] at hx
        obtain ⟨st'', hst'', -⟩ := rel.vars id x hx
        exact ⟨st'', hst'', .inr ⟨fun heq => hid (rel.stands.apart _ _ _ _ hst'' hst heq), hx⟩⟩
    obtain ⟨w', fr', hm, rel', -⟩ := rel.store g hg
      (mem_ready rel.grows rel.stands.entryBound hmem) (rel.isIntSlot_of_stored hst) htype hplain
      (hv holds).2 hl
    refine ⟨_, hm.reaches, rel', hm.kept, fun id hid => ?_, g.adds.storage _ _ hst⟩
    by_cases h : id = vr.id
    · rw [h, hj]
      rfl
    · simpa [Locals.set, h] using hid

theorem sim_cast [hp : Known p.isPlain] [hq : Known q.isPlain] (hv : F.Entails (Den C v p i)) :
    Sim S P (Now S F (n + 1)) (Lowering.castPrimitive v p q) (pure ())
      fun r _ => Now S (F.and (Den C r q (Core.converted p q i))) n :=
  .move id fun rel holds hr hg => by
    obtain ⟨hlt, hden⟩ := hv holds
    obtain ⟨w', fr', hm, rel', hden', hlt'⟩ := rel.cast hp.holds hq.holds hden hlt hr hg
    exact ⟨w', fr', hm, rel', hlt', hden'⟩

theorem sim_neg (hp : p.isPlain) (hb : p ≠ .bool) (hv : F.Entails (Den C v p i)) :
    Sim S P (Now S F (n + 1)) (Lowering.build (.unary .neg v)) (pure ())
      fun r _ => Now S (F.and (Den C r p (p.reduce (-i)))) n :=
  .move id fun rel holds hr hg => by
    obtain ⟨hlt, hden⟩ := hv holds
    have g := rel.stands.unary hr
    obtain ⟨fr', hm, rel', hden'⟩ := rel.neg hp hb hden g hg ((rel.typeOf hlt).symm.trans hden.type)
    exact ⟨_, fr', hm, rel', g.lt, hden'⟩

theorem sim_not (hv : F.Entails (Den C v .bool i)) :
    Sim S P (Now S F (n + 1)) (Lowering.build (.unary .not v)) (pure ())
      fun r _ => Now S (F.and (Den C r .bool (Core.ofBool (i == 0)))) n :=
  .move id fun rel holds hr hg => by
    obtain ⟨hlt, hden⟩ := hv holds
    have g := rel.stands.unary hr
    obtain ⟨fr', hm, rel', hden'⟩ := rel.not hden g hg ((rel.typeOf hlt).symm.trans hden.type)
    exact ⟨_, fr', hm, rel', g.lt, hden'⟩

theorem sim_compare {op : BinaryOp} (hp : p.isPlain) (hx : F.Entails (Den C x p i))
    (hy : F.Entails (Den C y p j)) :
    Sim S P (Now S F (n + 1)) (Lowering.build (.icmp (Lowering.intPredicate op) x y)) (pure ())
      fun r _ => Now S (F.and (Den C r .bool (Core.ofBool (Core.compared op i j)))) n :=
  .move id fun rel holds hr hg => by
    have g := rel.stands.icmp hr
    obtain ⟨fr', hm, rel', hden⟩ := rel.compare op hp (hx holds).2 (hy holds).2 g hg
    exact ⟨_, fr', hm, rel', g.lt, hden⟩

theorem sim_arith (op : BinaryOp) (hop : Core.isArithmetic op) (hp : p.isPlain)
    (hb : p ≠ .bool) (hx : F.Entails (Den C x p i))
    (hy : F.Entails (Den C y p j)) :
    Sim S P (Now S F (n + 1)) (Lowering.build (.binary (Lowering.intOp op) x y))
      (Eval.arith op p i j) fun r i => Now S (F.and (Den C r p i)) n :=
  .of_rel id fun rel holds hr hg => by
    obtain ⟨hlt, hden⟩ := hx holds
    have g := rel.stands.binary hr
    refine (rel.arith hop hp hb hden (hy holds).2 g hg ((rel.typeOf hlt).symm.trans hden.type)).mono ?_
    rintro a _ _ ⟨fr', rfl, rfl, hk, rel', hden'⟩
    exact ⟨rel', hk, fun _ => id, g.lt, hden'⟩

end

/-! ## Jumps -/

section

variable [hF : Steady S.act.base F]

theorem sim_newBlock {hint : String} : Sim S P (Now S F n) (Lowering.newBlock hint) (pure ())
    fun _ _ => Now S F n := by
  rintro s σ _ r t c - - ⟨rel, keeps, holds⟩ hr hg
  have g := rel.stands.blocked hr
  exact After.pure ⟨rel.blocked g hg, keeps, hF.keep holds (.of_adds g.adds) (.refl ..) fun _ _ => rfl⟩

theorem sim_br [hd : Waits d P] : Sim S P (Now S F n) (Lowering.build (.br d)) (pure ())
    fun _ _ => Waiting S d F n := by
  rintro s σ _ r t c hstage hfs ⟨rel, keeps, holds⟩ hr hg
  have g := rel.stands.ended (Lowering.ending_br d) hr
  have hs : Steps S.env C.functions P (Lowering.build (.br d)) (fun _ => P) 0 := inferInstance
  obtain ⟨e, hl⟩ := hs.leads hstage hfs hr
  obtain ⟨w', fr', hm, rel', hc⟩ := rel.jump S.callers g hg (hl.stage.waits d hd.mem) g.adds.stands
    (hl.ext.functions.trans rel.functions) hg fun _ _ h => h.extends hl.ext rel.stands.entryBound
  exact After.head hm.reaches (After.pure ⟨rel', keeps.trans hm.kept.memory,
    hF.keep holds hl.ext.moved hm.kept hc⟩)

theorem sim_condBr {yes no : BlockRef} [hy : Waits yes P] [hn : Waits no P]
    (hv : F.Entails (Den C v .bool i)) :
    Sim S P (Now S F n) (Lowering.build (.condBr v yes no)) (pure ())
      fun _ _ => Waiting S (if i = 0 then no else yes) F n := by
  rintro s σ _ r t c hstage hfs ⟨rel, keeps, holds⟩ hr hg
  have g := rel.stands.ended (Lowering.ending_condBr v yes no) hr
  obtain ⟨hlt, hden⟩ := hv holds
  have hs : Steps S.env C.functions P (Lowering.build (.condBr v yes no)) (fun _ => P) 0 :=
    inferInstance
  obtain ⟨e, hl⟩ := hs.leads hstage hfs hr
  have hempty : Empty S.act.func S.act.entry (if i = 0 then no else yes) t := by
    split
    · exact hl.stage.waits no hn.mem
    · exact hl.stage.waits yes hy.mem
  obtain ⟨w', fr', hm, rel', hc⟩ := rel.branch S.callers g hg hden hlt rfl hempty
  exact After.head hm.reaches (After.pure ⟨rel', keeps.trans hm.kept.memory,
    hF.keep holds hl.ext.moved hm.kept hc⟩)

/-- What is lowered while the machine waits is skipped. -/
theorem sim_skip_of {φ : α → Prop} [hs : Steps S.env C.functions P cx P₁ k] (ha : a ∈ P)
    (hr : ∀ {s r t}, Runs cx S.env s r t → a ∈ P₁ r ∧ φ r) :
    Sim S P (Waiting S a F n) cx (pure ()) fun r _ s σ z => Waiting S a F n s σ z ∧ φ r := by
  rintro s σ _ r t c hstage hfs ⟨rel, keeps, holds⟩ hrun hg
  obtain ⟨d, hl⟩ := hs.leads hstage hfs hrun
  have hbefore := hstage.waits a ha
  have hbehind := hl.stage.waits a (hr hrun).1
  obtain rfl := (hbefore.stands hstage.stands).unique rel.stands.current
  have rel' := rel.idle (hbehind.stands hl.stage.stands) hbehind.opened hl.ext.moved.unmoved hg
    (hbehind.values.trans hbefore.values.symm)
  exact After.pure ⟨⟨rel', keeps, hF.keep holds hl.ext.moved.unmoved (.refl ..) fun _ _ => rfl⟩,
    (hr hrun).2⟩

theorem sim_skip [Steps S.env C.functions P cx P₁ k] [ha : Waits a P] [ha' : ∀ r, Waits a (P₁ r)] :
    Sim S P (Waiting S a F n) cx (pure ()) fun _ _ => Waiting S a F n :=
  (sim_skip_of (φ := fun _ => True) ha.mem fun {_ r _} _ => ⟨(ha' r).mem, trivial⟩).mono id fun h => h.1

end

/-- Lowering gets to the block where the machine waits. -/
theorem sim_enter : Sim S P (Waiting S a F n) (Lowering.build (.setInsertPoint a)) (pure ())
    fun _ _ => Now S F n := by
  intro s σ z r t c hstage hfs hw hr hg
  obtain rfl := Lowering.runs_setInsertPoint.mp hr
  exact After.pure hw

end SsaCompiler.Simulation
