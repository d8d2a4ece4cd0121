import SsaCompiler.Proofs.Machine.Reach
import SsaCompiler.Proofs.Machine.Step

/-!
# Frames release their objects

However a call of a function ends, no function is active any more, the objects that its frames have
made are released, and no other object is, unless the program frees it. Each step changes the memory
in one of four ways (`Change`), along with the list of the objects that the active frames own. A call
is a sequence of such changes which begins and ends without active frames. All that is said about the
objects then follows from the changes alone.

Objects are found by the numbers of their segments. A number has 32 bits, so this holds as long as
fewer than 2 ^ 32 objects have been made. There are never more objects than steps, calls and constant
texts together (`World.Pays`), and the number of steps is limited.
-/

namespace SsaCompiler.Machine

open List
open Ssa (ValueRef FuncRef)

/-! ## Changes -/

namespace Memory

/-- How a step changes the memory and the objects that the active frames own. -/
inductive Change (frees : Word → Prop) : Memory × List Word → Memory × List Word → Prop where
  | extend {m m' : Memory} {slots : List Word} : m.Extends m' → Change frees (m, slots) (m', slots)
  | make {m m₁ m' : Memory} {size : Int} {addr : Word} {slots : List Word} : m.Extends m₁ →
    m₁.alloc size .stack = .ok (addr, m') → Change frees (m, slots) (m', addr :: slots)
  | free {m m₁ m' : Memory} {addr : Word} {slots : List Word} : frees addr → m.Extends m₁ →
    m₁.free addr = .ok m' → Change frees (m, slots) (m', slots)
  | release {m m₁ : Memory} {addrs slots : List Word} : m.Extends m₁ →
    Change frees (m, addrs ++ slots) (addrs.foldl Memory.release m₁, slots)

/-- The active frames own objects on the stack, and every live one. -/
structure Owned (m : Memory) (slots : List Word) : Prop where
  stack : ∀ addr ∈ slots, ∃ k s, addr = startOf (k + 1) ∧ m.segments[k]? = some s ∧ s.kind = .stack
  covered : ∀ k s, m.segments[k]? = some s → s.kind = .stack → s.live →
    startOf (k + 1) ∈ slots

variable {m m' : Memory} {slots addrs : List Word} {addr : Word} {k : Nat} {s : Segment}
  {frees : Word → Prop} {c c' : Memory × List Word}

theorem Extends.getElem? (h : m.Extends m') (hs : m.segments[k]? = some s) :
    m'.segments[k]? = some s := by
  rw [h.kept k (Array.getElem?_eq_some_iff.mp hs).1, hs]

theorem getElem?_releaseAll (addrs : List Word) (h : ∀ a ∈ addrs, segmentOf a ≠ k + 1) :
    (addrs.foldl release m).segments[k]? = m.segments[k]? := by
  induction addrs generalizing m with
  | nil => rfl
  | cons a addrs ih =>
    obtain ⟨ha, haddrs⟩ := forall_mem_cons.mp h
    rw [foldl_cons, ih haddrs]
    unfold release
    split
    · rfl
    · rw [Array.getElem?_modify, if_neg (by omega)]

theorem kind_releaseAll (addrs : List Word) (hs : m.segments[k]? = some s) :
    ∃ s', (addrs.foldl release m).segments[k]? = some s' ∧ s'.kind = s.kind := by
  have hk := (Array.getElem?_eq_some_iff.mp hs).1
  rw [← size_releaseAll addrs] at hk
  obtain ⟨s₀, hs₀, -, hkind, -⟩ := segment_releaseAll (Array.getElem?_eq_getElem hk)
  rw [hs] at hs₀
  exact ⟨_, Array.getElem?_eq_getElem hk, by rw [hkind, Option.some.inj hs₀]⟩

/-! ## Owned objects -/

namespace Owned

theorem extend (h : Owned m slots) (hext : m.Extends m') : Owned m' slots := by
  refine ⟨fun addr haddr => ?_, fun k s hs hkind hlive => ?_⟩
  · obtain ⟨k, s, rfl, hs, hkind⟩ := h.stack addr haddr
    exact ⟨k, s, rfl, hext.getElem? hs, hkind⟩
  · by_cases hk : k < m.segments.size
    · rw [hext.kept k hk] at hs
      exact h.covered k s hs hkind hlive
    · exact absurd hkind (hext.added k s (Nat.le_of_not_lt hk) hs)

theorem make {size : Int} (h : Owned m slots) (halloc : m.alloc size .stack = .ok (addr, m')) :
    Owned m' (addr :: slots) := by
  obtain ⟨rfl, rfl⟩ := of_alloc halloc
  refine ⟨fun a ha => ?_, fun k s hs hkind hlive => ?_⟩
  · rcases mem_cons.mp ha with rfl | ha
    · exact ⟨_, _, rfl, Array.getElem?_push_size, rfl⟩
    · obtain ⟨k, s, rfl, hs, hkind⟩ := h.stack a ha
      refine ⟨k, s, rfl, ?_, hkind⟩
      have hk := (Array.getElem?_eq_some_iff.mp hs).1
      rw [Array.getElem?_push, if_neg (by omega), hs]
  · rw [Array.getElem?_push] at hs
    split at hs
    · next hk => exact hk ▸ mem_cons_self
    · exact mem_cons_of_mem _ (h.covered k s hs hkind hlive)

theorem release (h : Owned m (addrs ++ slots)) (hroom : m.segments.size < 2 ^ 32) :
    Owned (addrs.foldl Memory.release m) slots := by
  refine ⟨fun a ha => ?_, fun k s hs hkind hlive => ?_⟩
  · obtain ⟨k, s, rfl, hs, hkind⟩ := h.stack a (mem_append_right addrs ha)
    obtain ⟨s', hs', hkind'⟩ := kind_releaseAll addrs hs
    exact ⟨k, s', rfl, hs', hkind'.trans hkind⟩
  · obtain ⟨s₀, hs₀, -, hkind₀, hlive₀⟩ := segment_releaseAll hs
    obtain ⟨hlive₀, hother⟩ := hlive₀.mp hlive
    have hk := (Array.getElem?_eq_some_iff.mp hs₀).1
    rcases mem_append.mp (h.covered k s₀ hs₀ (hkind₀ ▸ hkind) hlive₀) with hmem | hmem
    · exact absurd ⟨_, hmem, segmentOf_startOf (by omega)⟩ hother
    · exact hmem

theorem free (h : Owned m slots) (hfree : m.free addr = .ok m') : Owned m' slots := by
  rcases free_eq_ok.mp hfree with ⟨-, rfl⟩ | ⟨_, _, _, _, _, rfl⟩
  · exact h
  · refine ⟨fun a ha => ?_, fun k s hs hkind hlive => ?_⟩
    · obtain ⟨k, s, rfl, hs, hkind⟩ := h.stack a ha
      obtain ⟨s', hs', hkind'⟩ := kind_releaseAll [addr] hs
      exact ⟨k, s', rfl, hs', hkind'.trans hkind⟩
    · obtain ⟨s₀, hs₀, -, hkind₀, hlive₀⟩ := segment_release hs
      exact h.covered k s₀ hs₀ (hkind₀ ▸ hkind) (hlive₀.mp hlive).1

end Owned

/-! ## What changes keep -/

theorem Change.mono {frees' : Word → Prop} (h : Change frees c c')
    (hmono : ∀ a, frees a → frees' a) : Change frees' c c' := by
  cases h with
  | extend hext => exact .extend hext
  | make hext halloc => exact .make hext halloc
  | free hfrees hext hfree => exact .free (hmono _ hfrees) hext hfree
  | release hext => exact .release hext

theorem Change.size_le (h : Change frees c c') : c.1.segments.size ≤ c'.1.segments.size := by
  cases h with
  | extend hext => exact hext.size_le
  | make hext halloc =>
    rw [(of_alloc halloc).2]
    exact Nat.le_trans hext.size_le (by simp)
  | free _ hext hfree => exact Nat.le_trans hext.size_le (Nat.le_of_eq (size_free hfree).symm)
  | release hext => exact Nat.le_trans hext.size_le (Nat.le_of_eq (size_releaseAll ..).symm)

theorem Change.owned (h : Change frees c c') (hroom : c'.1.segments.size < 2 ^ 32)
    (hc : Owned c.1 c.2) : Owned c'.1 c'.2 := by
  cases h with
  | extend hext => exact hc.extend hext
  | make hext halloc => exact (hc.extend hext).make halloc
  | free _ hext hfree => exact (hc.extend hext).free hfree
  | release hext =>
    rw [size_releaseAll] at hroom
    exact (hc.extend hext).release hroom

/-- An object that is not on the stack is left alone, unless it is freed. -/
theorem Change.kept (h : Change frees c c') (hroom : c'.1.segments.size < 2 ^ 32)
    (hc : Owned c.1 c.2) (hs : c.1.segments[k]? = some s) (hkind : s.kind ≠ .stack) :
    c'.1.segments[k]? = some s ∨ ∃ addr, frees addr ∧ segmentOf addr = k + 1 := by
  cases h with
  | extend hext => exact .inl (hext.getElem? hs)
  | make hext halloc =>
    have hs := hext.getElem? hs
    have hk := (Array.getElem?_eq_some_iff.mp hs).1
    rw [(of_alloc halloc).2]
    refine .inl ?_
    rw [Array.getElem?_push, if_neg (by omega), hs]
  | @free _ _ _ addr _ hfrees hext hfree =>
    have hs := hext.getElem? hs
    rcases free_eq_ok.mp hfree with ⟨-, rfl⟩ | ⟨_, _, _, _, _, rfl⟩
    · exact .inl hs
    · by_cases hk : segmentOf addr = k + 1
      · exact .inr ⟨addr, hfrees, hk⟩
      · exact .inl ((getElem?_releaseAll [addr] (by simpa using hk)).trans hs)
  | @release _ m₁ addrs slots hext =>
    have hs := hext.getElem? hs
    refine .inl ((getElem?_releaseAll addrs fun a ha heq => hkind ?_).trans hs)
    rw [size_releaseAll] at hroom
    obtain ⟨j, t, rfl, ht, hstack⟩ := (hc.extend hext).stack a (mem_append_left slots ha)
    have hj := (Array.getElem?_eq_some_iff.mp ht).1
    rw [segmentOf_startOf (by omega)] at heq
    obtain rfl : j = k := by omega
    rw [hs] at ht
    rw [Option.some.inj ht, hstack]

/-- One change after the other. -/
abbrev Changes (frees : Word → Prop) : Memory × List Word → Memory × List Word → Prop :=
  Relation.ReflTransGen (Change frees)

theorem Changes.size_le (h : Changes frees c c') : c.1.segments.size ≤ c'.1.segments.size := by
  induction h with
  | refl => exact Nat.le_refl _
  | tail _ hchange ih => exact Nat.le_trans ih hchange.size_le

theorem Changes.owned (h : Changes frees c c') (hroom : c'.1.segments.size < 2 ^ 32)
    (hc : Owned c.1 c.2) : Owned c'.1 c'.2 := by
  induction h with
  | refl => exact hc
  | tail _ hchange ih =>
    exact hchange.owned hroom (ih (Nat.lt_of_le_of_lt hchange.size_le hroom))

theorem Changes.kept (h : Changes frees c c') (hroom : c'.1.segments.size < 2 ^ 32)
    (hc : Owned c.1 c.2) (hs : c.1.segments[k]? = some s) (hkind : s.kind ≠ .stack) :
    c'.1.segments[k]? = some s ∨ ∃ addr, frees addr ∧ segmentOf addr = k + 1 := by
  induction h with
  | refl => exact .inl hs
  | tail hchanges hchange ih =>
    have hroom' := Nat.lt_of_le_of_lt hchange.size_le hroom
    rcases ih hroom' with hs' | hfreed
    · exact hchange.kept hroom (Changes.owned hchanges hroom' hc) hs' hkind
    · exact .inr hfreed

end Memory

/-! ## Steps -/

/-- The objects that the active frames own. -/
def State.slots (s : State) : List Word :=
  s.frames.flatMap (·.slots)

/-- Each new object is a text of the program or has been paid for by a step. -/
structure World.Pays (p : Program) (w w' : World) : Prop where
  texts : ∀ k ∈ w'.globals, k ∈ w.globals ∨ k ∈ p.texts
  paid : w'.memory.segments.size + w.globals.size + w.steps ≤
    w.memory.segments.size + w'.globals.size + w'.steps

section

variable {p : Program} {w w' w'' : World}

namespace World

theorem Pays.trans (h : w.Pays p w') (h' : w'.Pays p w'') : w.Pays p w'' := by
  refine ⟨fun k hk => (h'.texts k hk).elim (h.texts k) .inr, ?_⟩
  have := h.paid
  have := h'.paid
  omega

theorem Pays.without (p : Program) (w : World) (f : Frame) : w.Pays p (w.without f) := by
  refine ⟨fun _ => .inl, ?_⟩
  rw [World.without, Memory.size_releaseAll]

theorem Follows.pays (h : w.tick.Follows p 1 w') : w.Pays p w' := by
  refine ⟨h.texts, ?_⟩
  have hmade := h.made
  have hsteps : w'.steps = w.steps + 1 := h.steps
  simp only [tick] at hmade
  omega

theorem Extends.pays (h : w.Extends p w') : w.Pays p w' := by
  refine ⟨h.texts, ?_⟩
  have := h.made
  have := h.steps
  omega

theorem Comes.pays (h : w.Comes p w') : w.Pays p w' :=
  h.elim (·.pays) (·.follows_one.pays)

theorem Comes.steps (h : w.Comes p w') : w'.steps ≤ w.steps + 1 :=
  h.elim (fun h => Nat.le_succ_of_le (Nat.le_of_eq h.steps)) fun h => Nat.le_of_eq h.steps

theorem Comes.depth (h : w.Comes p w') : w'.depth = w.depth :=
  h.elim (·.depth) (·.depth)

end World

end

namespace Program

variable {p : Program} {limit : Int} {w w' : World} {f : Frame} {callers : List Frame}
  {s t : State} {name : String} {args : List Word} {outcome : Outcome} {ended : Outcome × World}
  {behind : List ValueRef}

/-- The next step of a state frees the object at an address, by an operation or by a call of the
runtime function. -/
def Frees (p : Program) (s : State) (addr : Word) : Prop :=
  ∃ f callers v behind, s.frames = f :: callers ∧ f.rest = v :: behind ∧
    (World.readAll (p.code f.func) f.func.module f.regs s.world.tick
      ((p.code f.func).value v).args).1.getD 0 0 = addr ∧
    (((p.code f.func).value v).op = .free ∨
      ∃ callee, ((p.code f.func).value v).op = .call ∧
        ((p.code f.func).value v).aux = .callee callee ∧
        (p.func (p.resolve ⟨f.func.module, callee⟩)).isDeclaration ∧
        (p.func (p.resolve ⟨f.func.module, callee⟩)).name = Target.free.name)

theorem getD_of_callArgs {m : Ssa.Module} {as : List (Option ValueRef)} {xs : List Word}
    (h : (callArgs m as xs).map (·.value) = [addr]) : xs.getD 0 0 = addr := by
  unfold callArgs at h
  cases as with
  | nil => simp at h
  | cons a as =>
    cases xs with
    | nil => simp at h
    | cons x xs => simpa using (List.cons.inj h).1

/-- An operation that makes no stack object leaves the frames the objects they own. -/
theorem change_of_exec (callers : List Frame) {v : ValueRef} (hrest : f.rest = v :: behind)
    (h : (∃ x, exec (p.code f.func) f.func.module f.regs w.tick
        ((p.code f.func).value v) = .value x w') ∨
      exec (p.code f.func) f.func.module f.regs w.tick
        ((p.code f.func).value v) = .none w') :
    w.tick.Follows p 1 w' ∧
      Memory.Change (p.Frees ⟨w, f :: callers⟩) (w.memory, State.slots ⟨w, f :: callers⟩)
        (w'.memory, State.slots ⟨w, f :: callers⟩) := by
  have halters := exec_alters p f.func.module f.regs w.tick ((p.code f.func).value v)
  rcases h with ⟨x, hexec⟩ | hexec
  all_goals
    rw [hexec] at halters
    refine ⟨halters.1, ?_⟩
    rcases halters.2 with hext | ⟨addr, mem, ⟨hop, haddr⟩, hext, hfree⟩
    · exact .extend hext
    · exact .free ⟨f, callers, v, behind, rfl, hrest, haddr.symm, .inl hop⟩ hext hfree

theorem Computes.change (callers : List Frame) {v : ValueRef} {x : Word}
    (hrest : f.rest = v :: behind) (h : p.Computes w f v x slots w') :
    w.tick.Follows p 1 w' ∧
      Memory.Change (p.Frees ⟨w, f :: callers⟩) (w.memory, f.slots ++ callers.flatMap (·.slots))
        (w'.memory, slots ++ callers.flatMap (·.slots)) := by
  cases h with
  | value hexec => exact change_of_exec callers hrest (.inl ⟨_, hexec⟩)
  | slot hexec =>
    have halters := exec_alters p f.func.module f.regs w.tick ((p.code f.func).value v)
    rw [hexec] at halters
    obtain ⟨hfollows, mem, size, hext, halloc⟩ := halters
    exact ⟨hfollows, .make hext halloc⟩
  | @runtime callee args _ w₁ _ hop haux hdecl hread hext =>
    have hgrown := readAll_extends p f.func.module f.regs w.tick ((p.code f.func).value v).args
    rw [hread] at hgrown
    have halters := external_alters p (p.func (p.resolve ⟨f.func.module, callee⟩)).name
      (callArgs (p.code f.func) ((p.code f.func).value v).args args) w₁
    rw [hext] at halters
    refine ⟨hgrown.follows halters.1, ?_⟩
    rcases halters.2 with hext | ⟨addr, mem, ⟨hname, hargs⟩, hext, hfree⟩
    · exact .extend (hgrown.memory.trans hext)
    · refine .free ⟨f, callers, v, behind, rfl, hrest, ?_, .inr ⟨callee, hop, haux, hdecl, hname⟩⟩
        (hgrown.memory.trans hext) hfree
      rw [hread]
      exact getD_of_callArgs hargs

theorem Move.change (h : p.Move w f callers t) :
    Memory.Change (p.Frees ⟨w, f :: callers⟩) (w.memory, State.slots ⟨w, f :: callers⟩)
      (t.world.memory, t.slots) := by
  cases h with
  | skip _ _ => exact .extend (.refl _)
  | assign hrest hcomputes => exact (hcomputes.change callers hrest).2
  | effect hrest hexec => exact (change_of_exec callers hrest (.inr hexec)).2
  | call _ hstart _ _ _ hext =>
    obtain ⟨w₁, regs, rfl, hext', -⟩ := enter_running (start_running hstart)
    exact .extend (hext.memory.trans hext'.memory)
  | goto _ _ henter hext =>
    obtain ⟨w₁, regs, rfl, hext', -⟩ := enter_running henter
    exact .extend (hext.memory.trans hext'.memory)
  | @ret c rest _ _ _ w₁ _ hcallers _ _ hread =>
    have hext := readArg_extends p f.func.module f.regs w (p.control f)
    rw [hread] at hext
    subst hcallers
    exact .release hext.memory

theorem Halt.slots_eq {why : Stop} (h : p.Halt w f callers why t) :
    w.memory.Extends t.world.memory ∧ t.slots = State.slots ⟨w, f :: callers⟩ := by
  cases h with
  | exit hcomes => exact ⟨hcomes.elim (·.memory) (·.memory), rfl⟩
  | fault _ hcomes => exact ⟨hcomes.elim (·.memory) (·.memory), rfl⟩
  | crash hcomes => exact ⟨hcomes.elim (·.memory) (·.memory), rfl⟩
  | call henter hslots hext =>
    rw [enter_stopped henter]
    exact ⟨hext.memory, by simp [State.slots, hslots]⟩
  | goto _ _ henter hext =>
    rw [enter_stopped henter]
    exact ⟨hext.memory, rfl⟩

/-! ## Accounts -/

/-- What a step with `n` active functions does to the account: it counts once at most, pays for its
objects, and goes on counting the active functions. -/
structure Account (p : Program) (w : World) (n : Nat) (t : State) : Prop where
  pays : w.Pays p t.world
  steps : t.world.steps ≤ w.steps + 1
  depth : w.depth = n → t.world.depth = t.frames.length

theorem Account.of_comes (frames : List Frame) (h : w.Comes p w') :
    Account p w frames.length ⟨w', frames⟩ :=
  ⟨h.pays, h.steps, fun hw => h.depth.trans hw⟩

/-- A function that is about to be entered is counted. -/
theorem Account.of_entered {w₁ : World} (callers : List Frame) (h : w.tick.Extends p w₁)
    (h' : w₁.entered.Extends p w') : Account p w callers.length ⟨w', f :: callers⟩ := by
  refine ⟨(World.Comes.pays (.inr h)).trans ⟨h'.pays.texts, h'.pays.paid⟩, ?_, fun hw => ?_⟩
  · exact Nat.le_of_eq (h'.steps.trans h.steps)
  · exact h'.depth.trans (congrArg (· + 1) (h.depth.trans hw))

theorem Account.of_computed (frames : List Frame) (h : w.tick.Follows p 1 w') :
    Account p w frames.length ⟨w', frames⟩ :=
  ⟨h.pays, Nat.le_of_eq h.steps, fun hw => h.depth.trans hw⟩

theorem Move.account (h : p.Move w f callers t) : Account p w (callers.length + 1) t := by
  cases h with
  | skip _ _ => exact .of_comes (_ :: callers) (.inl (.refl p w))
  | assign hrest hcomputes =>
    exact .of_computed (_ :: callers) (hcomputes.change callers hrest).1
  | effect hrest hexec =>
    exact .of_computed (_ :: callers) (change_of_exec callers hrest (.inr hexec)).1
  | call _ hstart _ _ _ hext =>
    obtain ⟨w₁, regs, rfl, hext', -⟩ := enter_running (start_running hstart)
    exact .of_entered (f :: callers) hext hext'
  | goto _ _ henter hext =>
    obtain ⟨w₁, regs, rfl, hext', -⟩ := enter_running henter
    exact .of_comes (_ :: callers) (.inl (hext.trans hext'))
  | @ret c rest _ _ _ w₁ _ hcallers _ _ hread =>
    have hext := readArg_extends p f.func.module f.regs w (p.control f)
    rw [hread] at hext
    subst hcallers
    refine ⟨hext.pays.trans (.without ..), Nat.le_succ_of_le (Nat.le_of_eq hext.steps), fun hw => ?_⟩
    show w₁.depth - 1 = rest.length + 1
    rw [hext.depth, hw]
    rfl

theorem Halt.account {why : Stop} (h : p.Halt w f callers why t) :
    Account p w (callers.length + 1) t := by
  cases h with
  | exit hcomes => exact .of_comes (f :: callers) hcomes
  | fault _ hcomes => exact .of_comes (f :: callers) hcomes
  | crash hcomes => exact .of_comes (f :: callers) hcomes
  | call henter _ hext =>
    rw [enter_stopped henter]
    exact .of_entered (f :: callers) hext (.refl p _)
  | goto _ _ henter hext =>
    rw [enter_stopped henter]
    exact .of_comes (_ :: callers) (.inl hext)

/-- The end of a block is not counted. -/
theorem Move.steps_eq (h : p.Move w f callers t) (hrest : f.rest = []) :
    t.world.steps = w.steps := by
  cases h with
  | skip _ _ => rfl
  | assign hv _ => exact absurd (hrest.symm.trans hv) (by simp)
  | effect hv _ => exact absurd (hrest.symm.trans hv) (by simp)
  | call hv _ _ _ _ _ => exact absurd (hrest.symm.trans hv) (by simp)
  | goto _ _ henter hext =>
    obtain ⟨w₁, regs, rfl, hext', -⟩ := enter_running henter
    exact hext'.steps.trans hext.steps
  | ret _ _ _ _ hread =>
    have hext := readArg_extends p f.func.module f.regs w (p.control f)
    rw [hread] at hext
    exact hext.steps

/-- A machine that goes on has not passed the limit by this step. -/
theorem steps_le_of_step (h : p.step limit ⟨w, f :: callers⟩ = .running t) :
    t.world.steps ≤ max w.steps limit.toNat := by
  have hmove := move_of_step h
  have hsteps := hmove.account.steps
  cases hrest : f.rest with
  | nil => exact Nat.le_trans (Nat.le_of_eq (hmove.steps_eq hrest)) (Nat.le_max_left ..)
  | cons v behind =>
    unfold step at h
    dsimp only at h
    rw [hrest] at h
    dsimp only at h
    split at h
    · cases h
      exact Nat.le_max_left ..
    · split at h
      · cases h
      · omega

/-- There is an active frame, and all other frames wait for a value. -/
def Nested (s : State) : Prop :=
  ∃ f callers, s.frames = f :: callers ∧ ∀ c ∈ callers, c.rest ≠ []

theorem Move.nested (h : p.Move w f callers t) (hcallers : ∀ c ∈ callers, c.rest ≠ []) :
    Nested t := by
  cases h with
  | skip _ _ => exact ⟨_, _, rfl, hcallers⟩
  | assign _ _ => exact ⟨_, _, rfl, hcallers⟩
  | effect _ _ => exact ⟨_, _, rfl, hcallers⟩
  | call hrest hstart _ _ _ _ =>
    obtain ⟨w₁, regs, rfl, -⟩ := enter_running (start_running hstart)
    exact ⟨_, _, rfl, forall_mem_cons.mpr ⟨by simp [hrest], hcallers⟩⟩
  | goto _ _ henter _ =>
    obtain ⟨w₁, regs, rfl, -⟩ := enter_running henter
    exact ⟨_, _, rfl, hcallers⟩
  | ret _ heq _ _ _ =>
    subst heq
    exact ⟨_, _, rfl, (forall_mem_cons.mp hcallers).2⟩

/-! ## Calls -/

/-- The states that a call comes by. -/
inductive Visits (p : Program) (limit : Int) (name : String) (args : List Word) (w : World) :
    State → Prop where
  | start {g : FuncRef} {s : State} : p.main.find? name = some g →
    (p.func (p.resolve ⟨0, g⟩)).isDeclaration = false →
    args.length = (p.func (p.resolve ⟨0, g⟩)).sig.params.length →
    p.start w [] (p.resolve ⟨0, g⟩) args = .running s → Visits p limit name args w s
  | step {s t : State} : Visits p limit name args w s → p.step limit s = .running t →
    Visits p limit name args w t

/-- A call comes to an end: if it starts at all, it comes to a state that is its last one. -/
def Returns (p : Program) (limit : Int) (name : String) (args : List Word) (w : World) : Prop :=
  ∀ s, p.Visits limit name args w s →
    ∃ t ended, p.Visits limit name args w t ∧ p.advance limit t = .inr ended

/-- A call frees the object at an address, by one of its steps or because it is a call of the runtime
function. -/
def FreedBy (p : Program) (limit : Int) (name : String) (args : List Word) (w : World)
    (addr : Word) : Prop :=
  (∃ s t, p.Visits limit name args w s ∧ p.step limit s = .running t ∧ p.Frees s addr) ∨
    ∃ g x u, p.main.find? name = some g ∧ (p.func (p.resolve ⟨0, g⟩)).isDeclaration ∧
      (p.func (p.resolve ⟨0, g⟩)).name = Target.free.name ∧ args = [addr] ∧
      p.callFunction limit name args w = (.returned x, u)

theorem Visits.nested (h : p.Visits limit name args w s) : Nested s := by
  induction h with
  | start _ _ _ hstart =>
    obtain ⟨w₁, regs, rfl, -⟩ := enter_running (start_running hstart)
    exact ⟨_, _, rfl, by simp⟩
  | @step s t _ hstep ih =>
    obtain ⟨world, frames⟩ := s
    obtain ⟨f, callers, rfl, hcallers⟩ := ih
    exact (move_of_step hstep).nested hcallers

theorem Visits.callFunction_eq (h : p.Visits limit name args w s) :
    p.callFunction limit name args w = p.run limit s := by
  induction h with
  | start hfind hdef hlength hstart =>
    unfold callFunction
    simp only [hfind, hdef, hlength, hstart, Bool.false_eq_true, if_false, bne_self_eq_false]
  | step _ hstep ih => rw [ih, run_eq, advance, hstep]

theorem Visits.changes (h : p.Visits limit name args w s) :
    Memory.Changes (p.FreedBy limit name args w) (w.memory, []) (s.world.memory, s.slots) := by
  induction h with
  | start _ _ _ hstart =>
    obtain ⟨w₁, regs, rfl, hext, -⟩ := enter_running (start_running hstart)
    exact .single (.extend hext.memory)
  | @step s t hvisits hstep ih =>
    obtain ⟨f, callers, hframes, -⟩ := hvisits.nested
    obtain ⟨world, frames⟩ := s
    subst hframes
    refine ih.tail ((move_of_step hstep).change.mono fun addr hfrees => ?_)
    exact .inl ⟨_, t, hvisits, hstep, hfrees⟩

/-- Only the outermost frame gives the result of a call. -/
theorem Visits.callers_eq_nil {x : Word} (h : p.Visits limit name args w ⟨w', f :: callers⟩)
    {u : World} (hdone : p.step limit ⟨w', f :: callers⟩ = .done x u) : callers = [] := by
  obtain ⟨f', callers', heq, hcallers⟩ := h.nested
  obtain ⟨rfl, rfl⟩ := List.cons.inj heq
  cases callers with
  | nil => rfl
  | cons c rest =>
    exact absurd ((done_of_step hdone).1 c (by simp)) (hcallers c mem_cons_self)

theorem releaseFrames_eq (m : Memory) (frames : List Frame) :
    releaseFrames m frames = (frames.flatMap (·.slots)).foldl Memory.release m := by
  rw [releaseFrames, foldl_flatMap]

/-- The account of a call of which a state is reached. -/
theorem Visits.account (h : p.Visits limit name args w s) (hw : w.depth = 0) :
    w.Pays p s.world ∧ s.world.steps ≤ max w.steps limit.toNat ∧
      s.world.depth = s.frames.length := by
  induction h with
  | start _ _ _ hstart =>
    obtain ⟨w₁, regs, rfl, hext, -⟩ := enter_running (start_running hstart)
    refine ⟨⟨hext.pays.texts, hext.pays.paid⟩, ?_, hext.depth.trans (congrArg (· + 1) hw)⟩
    exact Nat.le_trans (Nat.le_of_eq hext.steps) (Nat.le_max_left ..)
  | @step s t hvisits hstep ih =>
    obtain ⟨f, callers, hframes, -⟩ := hvisits.nested
    obtain ⟨world, frames⟩ := s
    subst hframes
    obtain ⟨hpays, hsteps, hdepth⟩ := ih
    have haccount := (move_of_step hstep).account
    refine ⟨hpays.trans haccount.pays, ?_, haccount.depth hdepth⟩
    exact Nat.le_trans (steps_le_of_step hstep) (Nat.max_le.mpr ⟨hsteps, Nat.le_max_right ..⟩)

/-- A call has ended: no function is active, and at most one object has not been paid for. -/
structure Settled (p : Program) (limit : Int) (w w' : World) : Prop where
  depth : w'.depth = 0
  steps : w'.steps ≤ max w.steps limit.toNat + 1
  texts : ∀ k ∈ w'.globals, k ∈ w.globals ∨ k ∈ p.texts
  objects : w'.memory.segments.size + w.globals.size + w.steps ≤
    w.memory.segments.size + w'.globals.size + w'.steps + 1

theorem Settled.of_pays (h : w.Pays p w') (hdepth : w'.depth = 0)
    (hsteps : w'.steps ≤ max w.steps limit.toNat + 1) : Settled p limit w w' :=
  ⟨hdepth, hsteps, h.texts, Nat.le_succ_of_le h.paid⟩

theorem Settled.of_follows (h : w.Follows p 1 w') (hw : w.depth = 0) : Settled p limit w w' := by
  have hmade := h.made
  have hsteps := h.steps
  exact ⟨h.depth.trans hw, by omega, h.texts, by omega⟩

/-- The end of a run releases all objects of the frames that are still active. -/
theorem Visits.changes_end (h : p.Visits limit name args w s)
    (hend : p.advance limit s = .inr ended) :
    Memory.Changes (p.FreedBy limit name args w) (w.memory, []) (ended.2.memory, []) := by
  refine h.changes.tail ?_
  obtain ⟨f, callers, hframes, -⟩ := h.nested
  obtain ⟨world, frames⟩ := s
  subst hframes
  unfold advance at hend
  split at hend
  next => cases hend
  next x u hdone =>
    cases hend
    obtain rfl := h.callers_eq_nil hdone
    obtain ⟨-, w₁, hext, rfl⟩ := done_of_step hdone
    exact .release hext.memory
  next why t hstop =>
    cases hend
    obtain ⟨hext, hslots⟩ := (halt_of_step hstop).slots_eq
    rw [State.unwind, releaseFrames_eq, ← append_nil (State.slots _), ← hslots]
    exact .release hext

/-- At the end of a run all functions that were still active are left. -/
theorem Visits.settled (h : p.Visits limit name args w s)
    (hw : w.depth = 0) (hend : p.advance limit s = .inr ended) : Settled p limit w ended.2 := by
  obtain ⟨hpays, hsteps, hdepth⟩ := h.account hw
  obtain ⟨f, callers, hframes, -⟩ := h.nested
  obtain ⟨world, frames⟩ := s
  subst hframes
  unfold advance at hend
  split at hend
  next => cases hend
  next x u hdone =>
    cases hend
    obtain rfl := h.callers_eq_nil hdone
    obtain ⟨-, w₁, hext, rfl⟩ := done_of_step hdone
    refine .of_pays (hpays.trans (hext.pays.trans (.without ..))) ?_ ?_
    · exact congrArg (· - 1) (hext.depth.trans hdepth)
    · exact Nat.le_succ_of_le (Nat.le_trans (Nat.le_of_eq hext.steps) hsteps)
  next why t hstop =>
    cases hend
    have haccount := (halt_of_step hstop).account
    refine .of_pays (hpays.trans (haccount.pays.trans ⟨fun _ => .inl, ?_⟩)) ?_ ?_
    · rw [State.unwind, releaseFrames_eq, Memory.size_releaseAll]
    · exact Nat.sub_eq_zero_of_le (Nat.le_of_eq (haccount.depth hdepth))
    · exact Nat.le_trans haccount.steps (Nat.succ_le_succ hsteps)

/-- A function that cannot be started leaves the world alone. -/
theorem start_cases (p : Program) (w : World) (g : FuncAt) (args : List Word) :
    (∃ s, p.start w [] g args = .running s) ∨
      ∃ why s, p.start w [] g args = .stopped why s ∧ s.unwind = w := by
  unfold start
  split
  · exact .inr ⟨_, _, rfl, rfl⟩
  · cases henter : p.enter w.entered ⟨g, (p.func g).entry.getD 0, [],
      paramRegs (p.code g) (p.func g).params args {}, []⟩ [] none
      ((p.func g).entry.getD 0) with
    | running s => exact .inl ⟨s, henter⟩
    | done x u => exact absurd henter enter_ne_done
    | stopped why s => exact .inr ⟨why, s, henter, by rw [enter_stopped henter]; rfl⟩

/-- A call that starts no function is one of a runtime function, or does nothing. -/
theorem changes_of_not_visits (hvisits : ¬ ∃ s, p.Visits limit name args w s)
    (h : p.callFunction limit name args w = (outcome, w')) :
    w.Follows p 1 w' ∧
      Memory.Changes (p.FreedBy limit name args w) (w.memory, []) (w'.memory, []) := by
  have hcall := h
  have hidle : ∀ {w' : World}, w.Extends p w' → w.Follows p 1 w' ∧
      Memory.Changes (p.FreedBy limit name args w) (w.memory, []) (w'.memory, []) :=
    fun hext => ⟨hext.follows_one, .single (.extend hext.memory)⟩
  unfold callFunction at h
  split at h
  next => cases h; exact hidle (.refl p w)
  next g hfind =>
    dsimp only at h
    split at h
    next hdecl =>
      have halters := external_alters p (p.func (p.resolve ⟨0, g⟩)).name
        (args.map fun x => ⟨x, none⟩) w
      split at h
      next hext =>
        cases h
        rw [hext] at halters
        refine ⟨halters.1, ?_⟩
        rcases halters.2 with hext | ⟨addr, w₁, ⟨hname, hargs⟩, hext, hfree⟩
        · exact .single (.extend hext)
        · refine .single (.free (.inr ⟨g, _, _, hfind, hdecl, hname, ?_, hcall⟩) hext hfree)
          simpa [Function.comp_def] using hargs
      next hext => exact absurd hext (external_ne ..).1
      next hext => exact absurd hext (external_ne _ _ _ _ 0).2
      next hext =>
        cases h
        rw [hext] at halters
        exact hidle halters
      next hext =>
        cases h
        rw [hext] at halters
        exact hidle halters
    next hdef =>
      split at h
      next => cases h; exact hidle (.refl p w)
      next hlength =>
        rcases start_cases p w (p.resolve ⟨0, g⟩) args with ⟨s, hstart⟩ | ⟨why, s, hstart, hworld⟩
        · refine absurd ⟨s, .start hfind ?_ ?_ hstart⟩ hvisits
          · simpa using hdef
          · simpa using hlength
        · rw [hstart] at h
          cases h
          rw [hworld]
          exact hidle (.refl p w)

/-- A call is a sequence of changes, before and after which no frame is active. -/
theorem changes_of_call (hw : w.depth = 0) (hreturns : p.Returns limit name args w)
    (h : p.callFunction limit name args w = (outcome, w')) :
    Settled p limit w w' ∧
      Memory.Changes (p.FreedBy limit name args w) (w.memory, []) (w'.memory, []) := by
  by_cases hvisits : ∃ s, p.Visits limit name args w s
  · obtain ⟨s, hs⟩ := hvisits
    obtain ⟨t, ended, ht, hend⟩ := hreturns s hs
    obtain rfl : (outcome, w') = ended := by rw [← h, ht.callFunction_eq, run_eq, hend]
    exact ⟨ht.settled hw hend, ht.changes_end hend⟩
  · obtain ⟨hfollows, hchanges⟩ := changes_of_not_visits hvisits h
    exact ⟨.of_follows hfollows hw, hchanges⟩

/-! ## Sessions -/

/-- The worlds between calls on one machine, after `n` of them. All calls come to an end. -/
inductive Session (p : Program) (limit : Int) : Nat → World → Prop where
  | start : Session p limit 0 {}
  | call {n : Nat} {name : String} {args : List Word} {w w' : World} {outcome : Outcome} :
    Session p limit n w → p.Returns limit name args w →
    p.callFunction limit name args w = (outcome, w') → Session p limit (n + 1) w'

/-- What has been counted after `n` calls. -/
structure Books (p : Program) (limit : Int) (n : Nat) (w : World) : Prop where
  depth : w.depth = 0
  steps : w.steps ≤ limit.toNat + n
  texts : ∀ k ∈ w.globals, k ∈ p.texts
  objects : w.memory.segments.size ≤ w.globals.size + w.steps + n

variable {n : Nat}

theorem Books.call (h : Books p limit n w) (h' : Settled p limit w w') :
    Books p limit (n + 1) w' := by
  refine ⟨h'.depth, ?_, fun k hk => (h'.texts k hk).elim (h.texts k) id, ?_⟩
  · have := h'.steps
    have := h.steps
    omega
  · have := h'.objects
    have := h.objects
    omega

/-- There are no more objects than texts, steps and calls. -/
theorem Books.size_le (h : Books p limit n w) :
    w.memory.segments.size ≤ p.texts.length + limit.toNat + 2 * n := by
  have htexts : w.globals.size ≤ p.texts.length := by
    rw [← Std.HashMap.length_keys]
    have hdistinct : w.globals.keys.Nodup := Std.HashMap.nodup_keys
    exact hdistinct.length_le_of_subset fun k hk => h.texts k (Std.HashMap.mem_keys.mp hk)
  have := h.objects
  have := h.steps
  omega

theorem Session.books (h : p.Session limit n w) : Books p limit n w := by
  induction h with
  | start => exact ⟨rfl, Nat.zero_le _, fun k hk => absurd hk Std.HashMap.not_mem_empty, Nat.le_refl 0⟩
  | call _ hreturns hcall ih => exact ih.call (changes_of_call ih.depth hreturns hcall).1

/-- No object on the stack is live between two calls. -/
theorem Session.owned (h : p.Session limit n w) (hroom : w.memory.segments.size < 2 ^ 32) :
    w.memory.Owned [] := by
  induction h with
  | start => exact ⟨by simp, by simp⟩
  | call hsession hreturns hcall ih =>
    have hchanges := (changes_of_call hsession.books.depth hreturns hcall).2
    exact hchanges.owned hroom (ih (Nat.lt_of_le_of_lt hchanges.size_le hroom))

end Program

end SsaCompiler.Machine
