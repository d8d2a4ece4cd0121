import SsaCompiler.Proofs.Lowering.Construction
import SsaCompiler.Proofs.Ssa.Emission

/-!
# What lowering keeps

Lowering leaves the module fit for verification: what it adds refers only to what may be used.
`Ensures` says this of a step of lowering. A step may rely on items that are there when it starts,
and it hands on items that are there when it is done. Items stay there, so the steps of a sequence
can be looked at one by one: each of them finds what all the steps before it have handed on.
-/

namespace SsaCompiler.Lowering

open List
open Ssa (ValueRef BlockRef FuncRef Value Module)

/-! ## Items -/

/-- Something that a step of lowering may refer to. -/
inductive Item where
  | value (a : ValueRef)
  | typed (a : ValueRef) (t : Ssa.Ty)
  | block (b : BlockRef)
  | func (f : FuncRef)
  | body (f : FuncRef)
  | params (f : FuncRef) (n : Nat)
  /-- A type of which registers know all integers. -/
  | type (t : Ssa.Ty)

/-- Whether an item is there. -/
def Item.In (m : Module) : Item → Prop
  | .value a => m.IsOperand a
  | .typed a t => a < m.values.size ∧ m.typeOf a = t
  | .block b => b < m.blocks.size
  | .func f => f < m.funcs.size
  | .body f => m.HasBody f
  | .params f n => f < m.funcs.size ∧ n ≤ (m.func f).params.length
  | .type t => t.Standard

variable {F : List MethodFunc} {Γ Δ : List Item} {α β : Type} {m : Module} {xs : List ValueRef}
  {s : LoweringState} {name : String}

theorem Item.In.keeps {m m' : Module} {i : Item} (hm : m.Lowered) (hk : m.Keeps m')
    (h : i.In m) : i.In m' := by
  cases i with
  | value a => exact hk.isOperand hm h
  | typed a t => exact ⟨Nat.lt_of_lt_of_le h.1 hk.values, (hk.typeOf_eq h.1).trans h.2⟩
  | block b => exact Nat.lt_of_lt_of_le h hk.blocks
  | func f => exact Nat.lt_of_lt_of_le h hk.funcs
  | body f => exact hk.hasBody h
  | params f n =>
    exact ⟨Nat.lt_of_lt_of_le h.1 hk.funcs, Nat.le_trans h.2 (hk.func f h.1).params⟩
  | type t => exact h

/-- Whether all items of a list are there. -/
def Holds (m : Module) (Γ : List Item) : Prop :=
  ∀ i ∈ Γ, i.In m

theorem Holds.keeps {m m' : Module} (hm : m.Lowered) (hk : m.Keeps m') (h : Holds m Γ) :
    Holds m' Γ :=
  fun i hi => (h i hi).keeps hm hk

theorem Holds.append (h : Holds m Γ) (k : Holds m Δ) : Holds m (Γ ++ Δ) :=
  fun i hi => (mem_append.mp hi).elim (h i) (k i)

theorem holds_singleton (h : i.In m) : Holds m [i] :=
  fun _ hj => mem_singleton.mp hj ▸ h

theorem holds_nil : Holds m [] :=
  forall_mem_nil _

/-- The items of `Γ` tell that an item is there. Instances of this are found by search. -/
class Tells (Γ : List Item) (i : Item) : Prop where
  holds : ∀ {m : Module}, Holds m Γ → i.In m

/-- The items of `Γ` tell that all items of a list are there. -/
class TellsAll (Γ is : List Item) : Prop where
  holds : ∀ {m : Module}, Holds m Γ → Holds m is

section

variable {i j : Item} {is : List Item} {a : α} {as : List α} {k : α → Item}

theorem Tells.of_mem (hi : i ∈ Γ) : Tells Γ i :=
  ⟨fun h => h i hi⟩

instance [hi : Tells Γ i] : Tells (j :: Γ) i :=
  ⟨fun h => hi.holds fun i hi => h i (mem_cons_of_mem _ hi)⟩

instance : Tells (i :: Γ) i :=
  .of_mem (mem_cons_self ..)

instance [hi : Tells Γ i] : Tells (Δ ++ Γ) i :=
  ⟨fun h => hi.holds fun i hi => h i (mem_append_right _ hi)⟩

instance [hi : Tells Δ i] : Tells (Δ ++ Γ) i :=
  ⟨fun h => hi.holds fun i hi => h i (mem_append_left _ hi)⟩

instance : Tells ((some a).toList.map k) (k a) :=
  inferInstanceAs (Tells [k a] (k a))

instance {c : Prop} [Decidable c] {x y : ValueRef} [hx : Tells Γ (.value x)]
    [hy : Tells Γ (.value y)] : Tells Γ (.value (if c then x else y)) := by
  split
  · exact hx
  · exact hy

instance : TellsAll Γ [] :=
  ⟨fun _ => holds_nil⟩

instance [hi : Tells Γ i] [his : TellsAll Γ is] : TellsAll Γ (i :: is) :=
  ⟨fun h => forall_mem_cons.mpr ⟨hi.holds h, his.holds h⟩⟩

instance : TellsAll Γ Γ :=
  ⟨id⟩

instance [his : TellsAll Γ is] : TellsAll (i :: Γ) is :=
  ⟨fun h => his.holds fun i hi => h i (mem_cons_of_mem _ hi)⟩

instance [his : TellsAll Δ is] : TellsAll (Δ ++ Γ) is :=
  ⟨fun h => his.holds fun i hi => h i (mem_append_left _ hi)⟩

instance [his : TellsAll Γ is] : TellsAll (Δ ++ Γ) is :=
  ⟨fun h => his.holds fun i hi => h i (mem_append_right _ hi)⟩

instance : TellsAll Γ ([].map k) :=
  ⟨fun _ => holds_nil⟩

instance [Tells Γ (k a)] [TellsAll Γ (as.map k)] : TellsAll Γ ((a :: as).map k) :=
  inferInstanceAs (TellsAll Γ (k a :: as.map k))

instance : TellsAll Γ ((none : Option α).toList.map k) :=
  ⟨fun _ => holds_nil⟩

instance [Tells Γ (k a)] : TellsAll Γ ((some a).toList.map k) :=
  inferInstanceAs (TellsAll Γ [k a])

end

theorem TellsAll.isOperand (h : TellsAll Γ (xs.map .value)) (hΓ : Holds m Γ) :
    ∀ a ∈ xs, m.IsOperand a :=
  fun a ha => h.holds hΓ (.value a) (mem_map_of_mem ha)

/-! ## States -/

/-- The items that the storage of a variable consists of. -/
def itemsOf (s : Storage) : List Item :=
  .value s.addr :: s.length.toList.map .value

/-- What holds between two steps of lowering, when all methods have their functions. -/
structure Sound (F : List MethodFunc) (s : LoweringState) : Prop where
  functions : s.functions = F
  lowered : s.module.Lowered
  current : ∀ b, s.builder.current = some b → b < s.module.blocks.size
  texts : ∀ p ∈ s.texts, s.module.IsOperand p.2
  storage : ∀ p ∈ s.storage, Holds s.module (itemsOf p.2)
  bodies : ∀ d ∈ F, s.module.HasBody d.func

theorem Sound.withModule (h : Sound F s) (hm : m.Lowered) (hk : s.module.Keeps m) :
    Sound F (s.withModule m) :=
  ⟨h.functions, hm, fun b hb => Nat.lt_of_lt_of_le (h.current b hb) hk.blocks,
    fun p hp => hk.isOperand h.lowered (h.texts p hp),
    fun p hp => (h.storage p hp).keeps h.lowered hk,
    fun d hd => hk.hasBody (h.bodies d hd)⟩

theorem Sound.standingAt {b : BlockRef} (h : Sound F s) (hb : b < s.module.blocks.size) :
    Sound F (s.standingAt b) :=
  ⟨h.functions, h.lowered, fun _ hc => Option.some.inj hc ▸ hb, h.texts, h.storage, h.bodies⟩

/-- A step of lowering that finds the items of `Γ` leaves the state sound and hands on the items
that `g` lists for its result. -/
def Ensures (F : List MethodFunc) (Γ : List Item) (x : Lowering α) (g : α → List Item) : Prop :=
  ∀ ⦃env s a t⦄, Sound F s → Holds s.module Γ → Runs x env s a t →
    Sound F t ∧ s.module.Keeps t.module ∧ Holds t.module (g a)

/-! ## Sequences -/

namespace Ensures

variable {x : Lowering α} {f : α → Lowering β} {g : α → List Item} {h : β → List Item}

theorem bind (hx : Ensures F Γ x g) (hf : ∀ a, Ensures F (g a ++ Γ) (f a) h) :
    Ensures F Γ (x >>= f) h := by
  intro env s b t hs hΓ hr
  obtain ⟨a, u, hxr, hfr⟩ := runs_bind.mp hr
  obtain ⟨hu, hk, hg⟩ := hx hs hΓ hxr
  obtain ⟨ht, hk', hh⟩ := hf a hu (hg.append (hΓ.keeps hs.lowered hk)) hfr
  exact ⟨ht, hk.trans hk', hh⟩

theorem pure [hg : TellsAll Γ (g a)] : Ensures F Γ (pure a) g := by
  intro env s b t hs hΓ hr
  obtain ⟨rfl, rfl⟩ := runs_pure.mp hr
  exact ⟨hs, .refl _, hg.holds hΓ⟩

theorem fail {d : Defect} : Ensures F Γ (Lowering.fail d : Lowering α) g :=
  fun _ _ _ _ _ _ hr => absurd hr runs_fail

/-- More items may be there, and not all of them have to be handed on. -/
theorem weaken {g' : α → List Item} (hx : Ensures F Γ x g) (hΓ : Γ ⊆ Δ) (hg : ∀ a, g' a ⊆ g a) :
    Ensures F Δ x g' := by
  intro env s a t hs hΔ hr
  obtain ⟨ht, hk, hh⟩ := hx hs (fun i hi => hΔ i (hΓ hi)) hr
  exact ⟨ht, hk, fun i hi => hh i (hg a hi)⟩

/-- A step that relies on nothing can be taken anywhere. -/
theorem anywhere (hx : Ensures F [] x g) : Ensures F Γ x g :=
  hx.weaken (nil_subset _) fun _ => List.Subset.refl _

theorem build_bind {y : Ssa.Build α} {k : α → Ssa.Build β} (hy : Ensures F Γ (build y) g)
    (hk : ∀ a, Ensures F (g a ++ Γ) (build (k a)) h) : Ensures F Γ (build (y >>= k)) h := by
  intro env s b t hs hΓ hr
  exact hy.bind hk hs hΓ (runs_bind.mpr (runs_build_bind.mp hr))

theorem build_pure [hg : TellsAll Γ (g a)] : Ensures F Γ (build (Pure.pure a)) g := by
  intro env s b t hs hΓ hr
  obtain ⟨rfl, rfl⟩ := runs_build_pure.mp hr
  exact ⟨hs, .refl _, hg.holds hΓ⟩

end Ensures

/-! ## Looking around -/

theorem ensures_read {g : Env → List Item} (hg : ∀ env, g env = []) : Ensures F Γ read g := by
  intro env s a t hs hΓ hr
  obtain ⟨rfl, rfl⟩ := runs_read.mp hr
  exact ⟨hs, .refl _, hg a ▸ holds_nil⟩

theorem ensures_lift {y : Env → Except Failure α} (hg : ∀ env a m, y env = .ok a → Holds m (g a)) :
    Ensures F Γ (lift y) g := by
  intro env s a t hs hΓ hr
  obtain ⟨hy, rfl⟩ := runs_lift.mp hr
  exact ⟨hs, .refl _, hg env a _ hy⟩

theorem ensures_typeOf {a : ValueRef} [ha : Tells Γ (.value a)] :
    Ensures F Γ (build (.typeOf a)) fun t => [.typed a t, .type t] := by
  intro env s ty t hs hΓ hr
  obtain ⟨rfl, rfl⟩ := runs_typeOf.mp hr
  have ha := ha.holds hΓ
  refine ⟨hs, .refl _, fun i hi => ?_⟩
  rcases mem_cons.mp hi with rfl | hi
  · exact ⟨ha.1, rfl⟩
  · exact mem_singleton.mp hi ▸ (hs.lowered.value a ha.1).standard

theorem ensures_isTerminated : Ensures F Γ (build .isTerminated) fun _ => [] := by
  intro env s a t hs hΓ hr
  obtain ⟨-, -, -, rfl⟩ := runs_isTerminated.mp hr
  exact ⟨hs, .refl _, holds_nil⟩

theorem ensures_setInsertPoint {b : BlockRef} [hb : Tells Γ (.block b)] :
    Ensures F Γ (build (.setInsertPoint b)) fun _ => [] := by
  intro env s a t hs hΓ hr
  obtain rfl := runs_setInsertPoint.mp hr
  exact ⟨hs.standingAt (hb.holds hΓ), .refl _, holds_nil⟩

/-- Building elsewhere changes nothing but the module. -/
theorem Ensures.aside (hx : Ensures F Γ x g) : Ensures F Γ (Lowering.aside x) g := by
  intro env s a t hs hΓ hr
  simp only [Lowering.aside, runs_bind, runs_get, runs_modify, runs_pure] at hr
  obtain ⟨_, _, ⟨rfl, rfl⟩, a', u, hxr, _, _, rfl, rfl, rfl⟩ := hr
  obtain ⟨hu, hk, hg⟩ := hx hs hΓ hxr
  exact ⟨⟨hu.functions, hu.lowered,
    fun b hb => Nat.lt_of_lt_of_le (hs.current b hb) hk.blocks, hu.texts, hu.storage, hu.bodies⟩,
    hk, hg⟩

/-! ## Additions to the module -/

theorem ensures_making {k : Module → α × Module} {g : α → List Item}
    (hk : ∀ m, m.Lowered → Holds m Γ →
      (k m).2.Lowered ∧ m.Keeps (k m).2 ∧ Holds (k m).2 (g (k m).1)) :
    Ensures F Γ (build (.making k)) g := by
  intro env s a t hs hΓ hr
  obtain ⟨rfl, rfl⟩ := runs_making.mp hr
  obtain ⟨hm, hkeeps, hg⟩ := hk _ hs.lowered hΓ
  exact ⟨hs.withModule hm hkeeps, hkeeps, hg⟩

theorem ensures_const {x : Value} (hx : ∀ m, Holds m Γ → x.Fits m) (hop : x.op ≠ .call) :
    Ensures F Γ (build (.making (·.addConst x))) fun a => [.value a] :=
  ensures_making fun m hm hΓ =>
    have h := Module.emits_addConst m x
    ⟨h.lowered hm (hx m hΓ), h.keeps, holds_singleton (h.isOperand fun hc => absurd hc hop)⟩

theorem Sound.emits {place : Option BlockRef} {x : Value} (hs : Sound F s)
    (h : Module.Emits s.module place x m) (hx : x.Fits s.module) :
    Sound F (s.withModule m) ∧ s.module.Keeps m :=
  ⟨hs.withModule (h.lowered hs.lowered hx) h.keeps, h.keeps⟩

theorem ensures_emit {x : Value} (hx : ∀ m, Holds m Γ → x.Fits m) (hop : x.op ≠ .call) :
    Ensures F Γ (build (.emit x)) fun a => [.value a] := by
  intro env s a t hs hΓ hr
  obtain ⟨b, -, -, rfl, rfl⟩ := runs_emit.mp hr
  have h := Module.emits_newValue s.module b x
  obtain ⟨ht, hk⟩ := hs.emits h (hx _ hΓ)
  exact ⟨ht, hk, holds_singleton (h.isOperand fun hc => absurd hc hop)⟩

theorem ensures_alloca {t : Ssa.Ty} [ht : Tells Γ (.type t)] :
    Ensures F Γ (build (.alloca t name)) fun a => [.value a] := by
  intro env s r u hs hΓ hr
  obtain ⟨b, -, rfl, rfl⟩ := runs_alloca.mp hr
  have h := Module.emits_newValue s.module
    ((s.module.func (s.module.block b).func).entry.getD b)
    { op := .alloca, type := .pointer t, aux := .name name }
  obtain ⟨hu, hk⟩ := hs.emits h ⟨Ssa.Ty.standard_pointer.mpr (ht.holds hΓ),
    fun a ha => absurd ha not_mem_nil, fun _ => rfl, fun _ _ => rfl, fun hc => nomatch hc⟩
  exact ⟨hu, hk, holds_singleton (h.isOperand fun hc => nomatch hc)⟩

/-! ## Constants, functions and blocks -/

theorem ensures_globalString {data : String} :
    Ensures F Γ (build (.globalString name data)) fun a => [.value a] :=
  ensures_making fun _ hm _ =>
    have h := hm.globalString name data
    ⟨h.1, h.2.1, holds_singleton h.2.2⟩

theorem ensures_declareFunction {sig : Ssa.Ty} (hsig : sig.Standard)
    (hrun : Ssa.IsRuntime { name := name, sig := sig }) :
    Ensures F Γ (build (.declareFunction name sig)) fun f => [.func f] :=
  ensures_making fun _ hm _ =>
    have h := hm.declareFunction hsig hrun
    ⟨h.1, h.2.1, holds_singleton h.2.2⟩

/-- A new function has a value for each of its parameters. -/
theorem ensures_defineFunction {sig : Ssa.Ty} {names : List String} (hsig : sig.Standard)
    (hname : Target.external? name = none) :
    Ensures F Γ (build (.defineFunction name sig names)) fun f =>
      [.body f, .params f sig.params.length] := by
  intro env s f t hs hΓ hr
  obtain ⟨b, hrun, rfl⟩ := runs_build.mp hr
  simp only [Ssa.Build.defineFunction, run_bind_ok, run_module] at hrun
  obtain ⟨_, _, ⟨rfl, rfl⟩, hrun⟩ := hrun
  cases hdef : s.module.defineFunction? name sig names with
  | none =>
    rw [hdef] at hrun
    exact nomatch hrun
  | some r =>
    rw [hdef] at hrun
    cases hrun
    have hother : ∀ g < s.module.funcs.size, (s.module.func g).isDeclaration →
        (s.module.func g).name ≠ name := by
      rintro g hg hdecl rfl
      have hrun := (hs.lowered.declared g hg hdecl).1
      rw [hname] at hrun
      exact absurd hrun Bool.false_ne_true
    obtain ⟨hm, hk, hbody, hlen⟩ := hs.lowered.defineFunction? hsig hother hdef
    refine ⟨hs.withModule hm hk, hk, fun i hi => ?_⟩
    rcases mem_pair.mp hi with rfl | rfl
    · exact hbody
    · exact ⟨hbody.1, Nat.le_of_eq hlen.symm⟩

theorem ensures_module {f : FuncRef} {n : Nat} [hf : Tells Γ (.body f)]
    [hn : Tells Γ (.params f n)] :
    Ensures F Γ (build .module) fun m => .block ((m.func f).entry.getD 0) ::
      (List.range n).map fun i => .value ((m.func f).params.getD i 0) := by
  intro env s m t hs hΓ hr
  obtain ⟨rfl, rfl⟩ := runs_module.mp hr
  have hbody : t.module.HasBody f := hf.holds hΓ
  have hlen : n ≤ (t.module.func f).params.length := (hn.holds hΓ).2
  refine ⟨hs, .refl _, fun i hi => ?_⟩
  rcases mem_cons.mp hi with rfl | hi
  · obtain ⟨e, he⟩ := Option.isSome_iff_exists.mp (Option.isNone_eq_false_iff.mp hbody.2)
    rw [he]
    exact hs.lowered.entry f e he
  · obtain ⟨k, hk, rfl⟩ := mem_map.mp hi
    have hk : k < (t.module.func f).params.length :=
      Nat.lt_of_lt_of_le (mem_range.mp hk) hlen
    have hget : (t.module.func f).params.getD k 0 = (t.module.func f).params[k] := by
      rw [getD_eq_getElem?_getD, List.getElem?_eq_getElem hk]
      rfl
    rw [hget]
    exact hs.lowered.param f _ (getElem_mem hk)

theorem ensures_newBlock {hint : String} : Ensures F Γ (newBlock hint) fun b => [.block b] := by
  intro env s d t hs hΓ hr
  obtain ⟨b, hb, rfl, rfl⟩ := runs_newBlock.mp hr
  obtain ⟨hm, hk⟩ := hs.lowered.newBlock (hs.lowered.home b (hs.current b hb)).1 hint
  refine ⟨hs.withModule hm hk, hk, holds_singleton ?_⟩
  exact Nat.lt_of_lt_of_eq (Nat.lt_succ_self _) (Array.size_push ..).symm

/-! ## Calls -/

theorem fits_call {f : FuncRef} (hm : m.Lowered) (hf : f < m.funcs.size)
    (hxs : ∀ a ∈ xs, m.IsOperand a) :
    Value.Fits m { op := .call, type := (m.func f).sig.result, args := xs.map some,
                   aux := .callee f } := by
  refine ⟨(hm.sig f).result, fun a ha => ?_, fun _ g hg => ?_,
    fun _ h => absurd h Bool.false_ne_true, fun _ => ⟨f, hf, rfl⟩⟩
  · obtain ⟨b, hb, hab⟩ := mem_map.mp ha
    exact Option.some.inj hab ▸ hxs b hb
  · obtain rfl : f = g := by simpa using hg
    rfl

/-- The result of a function of the target is not used. -/
theorem ensures_callRuntime {f : FuncRef} [hf : Tells Γ (.func f)]
    [hxs : TellsAll Γ (xs.map .value)] : Ensures F Γ (build (.call f xs)) fun _ => [] := by
  intro env s a t hs hΓ hr
  obtain ⟨b, -, -, rfl, rfl⟩ := runs_emit.mp (runs_call.mp hr)
  obtain ⟨ht, hk⟩ := hs.emits (Module.emits_newValue ..)
    (fits_call hs.lowered (hf.holds hΓ) (hxs.isOperand hΓ))
  exact ⟨ht, hk, holds_nil⟩

theorem ensures_call {f : FuncRef} [hf : Tells Γ (.body f)] [hxs : TellsAll Γ (xs.map .value)] :
    Ensures F Γ (build (.call f xs)) fun a => [.value a] := by
  intro env s a t hs hΓ hr
  obtain ⟨b, -, -, rfl, rfl⟩ := runs_emit.mp (runs_call.mp hr)
  have hbody : s.module.HasBody f := hf.holds hΓ
  have h := Module.emits_newValue s.module b
    { op := .call, type := (s.module.func f).sig.result, args := xs.map some, aux := .callee f }
  obtain ⟨ht, hk⟩ := hs.emits h (fits_call hs.lowered hbody.1 (hxs.isOperand hΓ))
  exact ⟨ht, hk, holds_singleton (h.isOperand fun _ => ⟨f, rfl, hbody⟩)⟩

/-! ## Ends of blocks -/

theorem ensures_end {x : Ssa.Build Unit} {kind : Ssa.BlockKind}
    {controls : List (Option ValueRef) → List (Option ValueRef)} {succs : List BlockRef}
    (hx : Ending x kind controls succs)
    (hcs : ∀ cs a, some a ∈ controls cs → some a ∈ cs ∨ Tells Γ (.value a)) :
    Ensures F Γ (build x) fun _ => [] := by
  intro env s u t hs hΓ hr
  obtain ⟨y, hrun, rfl⟩ := runs_build.mp hr
  obtain ⟨b, hb, ho⟩ := hx.opened hrun
  obtain ⟨m, hm, he⟩ := hx.run hb (hs.current b hb) ho
  cases hm.symm.trans hrun
  have hlowered := he.lowered hs.lowered fun a ha =>
    (hcs _ a ha).elim (hs.lowered.control b a) fun h => h.holds hΓ
  exact ⟨hs.withModule hlowered he.keeps, he.keeps, holds_nil⟩

end SsaCompiler.Lowering
