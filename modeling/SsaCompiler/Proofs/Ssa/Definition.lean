import Mathlib.Data.List.Forall2
import SsaCompiler.Proofs.Ssa.Growth

/-!
# Functions that are defined

A function that is defined under a new name gets an entry block, and there a value for each of its
parameters. Nothing else in the module changes.
-/

namespace SsaCompiler.Ssa.Module

open List

variable {m m' : Module} {b e : BlockRef} {v : ValueRef} {f g : FuncRef} {name : String} {sig : Ty}
  {vs : List ValueRef} {ts : List Ty}

/-- A value stands for a parameter of a type. -/
structure IsArg (m : Module) (v : ValueRef) (t : Ty) : Prop where
  op : (m.value v).op = .arg
  type : m.typeOf v = t
  bound : v < m.values.size

theorem IsArg.grows (h : IsArg m v sig) (hg : Grows m m') : IsArg m' v sig :=
  ⟨(hg.value v h.bound).op.trans h.op, (hg.value v h.bound).type.trans h.type,
    Nat.lt_of_lt_of_le h.bound hg.values⟩

theorem op_of_isArg (h : List.Forall₂ (IsArg m) vs ts) : ∀ v ∈ vs, (m.value v).op = .arg := by
  induction h with
  | nil => exact forall_mem_nil _
  | cons hv _ ih =>
    intro v' hv'
    rcases mem_cons.mp hv' with rfl | hv'
    · exact hv.op
    · exact ih v' hv'

theorem not_isIntSlot_of_arg (h : (m.value v).op = .arg) : m.isIntSlot v = false := by
  unfold isIntSlot
  rw [h]
  rfl

/-- A function has an entry block. -/
structure Rooted (m : Module) (g : FuncRef) (e : BlockRef) : Prop where
  known : g < m.funcs.size
  entry : (m.func g).entry = some e
  bound : e < m.blocks.size
  home : (m.block e).func = g

theorem Rooted.grows (h : Rooted m g e) (hg : Grows m m') : Rooted m' g e :=
  ⟨Nat.lt_of_lt_of_le h.known hg.funcs, (hg.func g h.known).entry.trans h.entry,
    Nat.lt_of_lt_of_le h.bound hg.blocks, (hg.home e h.bound).trans h.home⟩

/-- A function has been defined, and there is no code in it yet. -/
structure Unwritten (m : Module) (g : FuncRef) (e : BlockRef) : Prop extends Rooted m g e where
  opened : (m.block e).isTerminated = false
  code : (m.block e).values = (m.func g).params
  args : List.Forall₂ (IsArg m) (m.func g).params (m.func g).sig.params
  nodup : (m.func g).params.Nodup

/-- A function stays unwritten as long as its entry block stays the same. -/
theorem Unwritten.grows (h : Unwritten m g e) (hg : Grows m m')
    (he : (m'.block e).Like (m.block e)) : Unwritten m' g e := by
  have hlike := hg.func g h.known
  refine ⟨h.toRooted.grows hg, he.isTerminated.trans h.opened,
    he.values.trans (h.code.trans hlike.params.symm), ?_, hlike.params ▸ h.nodup⟩
  rw [hlike.params, hlike.sig]
  exact h.args.imp fun _ _ harg => harg.grows hg

theorem Unwritten.slotCount_eq (h : Unwritten m g e) : m.slotCount e = 0 := by
  unfold slotCount
  rw [h.code, countP_eq_zero]
  intro v hv
  rw [not_isIntSlot_of_arg (op_of_isArg h.args v hv)]
  exact Bool.false_ne_true

/-! ## Parameters -/

/-- A function has been added with an entry block, and values for some of its parameters. -/
structure Filling (m : Module) (name : String) (sig : Ty) (m' : Module) (vs : List ValueRef)
    (ts : List Ty) : Prop where
  funcs : m'.funcs.size = m.funcs.size + 1
  func : ∀ f < m.funcs.size, (m'.func f).Like (m.func f)
  added : (m'.func m.funcs.size).Like
    { name := name, sig := sig, params := vs, entry := some m.blocks.size }
  blocks : m'.blocks.size = m.blocks.size + 1
  block : ∀ b < m.blocks.size, m'.block b = m.block b
  entry : (m'.block m.blocks.size).Like { number := 0, func := m.funcs.size, values := vs }
  values : m.values.size ≤ m'.values.size
  value : ∀ v < m.values.size, (m'.value v).Like (m.value v)
  noPhi : ∀ v, m.values.size ≤ v → (m'.value v).op ≠ .phi
  args : List.Forall₂ (IsArg m') vs ts
  nodup : vs.Nodup
  inside : ∀ v ∈ vs, v < m'.values.size

theorem filling_nil (m : Module) (name : String) (sig : Ty) :
    let m₁ : Module := { m with funcs := m.funcs.push { name := name, sig := sig } }
    let m₂ := (m₁.newBlock m.funcs.size "entry").2
    Filling m name sig
      (m₂.modifyFunc m.funcs.size fun fn => { fn with entry := some m.blocks.size }) [] [] := by
  intro m₁ m₂
  have hadds : AddsBlock m₁ m.funcs.size m₂ := addsBlock_newBlock m₁ m.funcs.size "entry"
  have hfunc : ∀ f, m₁.func f = if f = m.funcs.size then { name := name, sig := sig } else m.func f :=
    fun f => getD_push m.funcs _ f
  have hsize : m₂.funcs.size = m.funcs.size + 1 := hadds.funcs.trans (Array.size_push ..)
  have hvalue : ∀ v, m₂.value v = m.value v := fun v => by
    unfold Module.value
    rw [hadds.values]
  refine ⟨(Array.size_modify ..).trans hsize, fun f hf => ?_, ?_, hadds.size, hadds.old, hadds.new,
    ?_, fun v _ => ?_, fun v hv => ?_, .nil, .nil, forall_mem_nil _⟩
  · rw [func_modifyFunc, if_neg fun h => Nat.ne_of_lt hf h.1.symm]
    refine (hadds.func f).trans ?_
    rw [hfunc, if_neg (Nat.ne_of_lt hf)]
    exact .refl _
  · rw [func_modifyFunc, if_pos ⟨rfl, by rw [hsize]; exact Nat.lt_succ_self _⟩]
    have hlike := hadds.func m.funcs.size
    rw [hfunc, if_pos rfl] at hlike
    exact ⟨hlike.name, hlike.sig, hlike.params, rfl⟩
  · exact Nat.le_of_eq (congrArg Array.size hadds.values).symm
  · exact hvalue v ▸ .refl _
  · show (m₂.value v).op ≠ .phi
    exact Grows.noPhi_of_size_le hv

theorem Filling.add (aux : Aux) (i : Int) (t : Ty) (h : Filling m name sig m' vs ts) :
    let p := m'.newValue m.blocks.size false { op := .arg, type := t, auxInt := i, aux := aux }
    Filling m name sig
      (p.2.modifyFunc m.funcs.size fun fn => { fn with params := fn.params ++ [p.1] })
      (vs ++ [m'.values.size]) (ts ++ [t]) := by
  intro p
  have happ : Emits m' _ { op := .arg, type := t, auxInt := i, aux := aux } p.2 :=
    emits_newValue m' m.blocks.size _
  have hold : ∀ {v u}, IsArg m' v u → IsArg p.2 v u := fun harg =>
    ⟨(happ.old _ harg.bound).op.trans harg.op, (happ.old _ harg.bound).type.trans harg.type,
      by rw [happ.size]; exact Nat.lt_succ_of_lt harg.bound⟩
  have hnew : IsArg p.2 m'.values.size t :=
    ⟨happ.new.op, happ.new.type, by rw [happ.size]; exact Nat.lt_succ_self _⟩
  refine ⟨(Array.size_modify ..).trans (happ.funcs.trans h.funcs), fun f hf => ?_, ?_,
    happ.blocks.trans h.blocks, fun b hb => ?_, ?_, ?_, fun v hv => ?_, fun v hv => ?_, ?_, ?_,
    fun v hv => ?_⟩
  · rw [func_modifyFunc, if_neg fun h => Nat.ne_of_lt hf h.1.symm]
    exact (happ.func f).trans (h.func f hf)
  · rw [func_modifyFunc, if_pos ⟨rfl, by rw [happ.funcs, h.funcs]; exact Nat.lt_succ_self _⟩]
    have hlike := (happ.func m.funcs.size).trans h.added
    exact ⟨hlike.name, hlike.sig, congrArg (· ++ [m'.values.size]) hlike.params, hlike.entry⟩
  · exact (happ.there fun hb' => Nat.ne_of_gt hb (Option.some.inj hb')).trans (h.block b hb)
  · show (p.2.block m.blocks.size).Like _
    rw [happ.here (by rw [h.blocks]; exact Nat.lt_succ_self _)]
    exact ⟨congrArg (· ++ [m'.values.size]) h.entry.values, h.entry.kind, h.entry.controls,
      h.entry.succs, h.entry.func⟩
  · show m.values.size ≤ p.2.values.size
    rw [happ.size]
    exact Nat.le_succ_of_le h.values
  · exact (happ.old v (Nat.lt_of_lt_of_le hv h.values)).trans (h.value v hv)
  · show (p.2.value v).op ≠ .phi
    rcases Nat.lt_trichotomy v m'.values.size with hlt | rfl | hgt
    · rw [(happ.old v hlt).op]
      exact h.noPhi v hv
    · rw [hnew.op]
      decide
    · exact Grows.noPhi_of_size_le (by rw [happ.size]; exact hgt)
  · have hargs : List.Forall₂ (IsArg p.2) (vs ++ [m'.values.size]) (ts ++ [t]) :=
      rel_append (h.args.imp fun _ _ => hold) (.cons hnew .nil)
    exact hargs.imp fun _ _ harg => ⟨harg.op, harg.type, harg.bound⟩
  · rw [nodup_append]
    refine ⟨h.nodup, pairwise_singleton .., fun v hv u hu => ?_⟩
    rw [mem_singleton.mp hu]
    exact Nat.ne_of_lt (h.inside v hv)
  · show v < p.2.values.size
    rw [happ.size]
    rcases mem_append.mp hv with hv | hv
    · exact Nat.lt_succ_of_lt (h.inside v hv)
    · rw [mem_singleton.mp hv]
      exact Nat.lt_succ_self _

theorem Filling.addParams : ∀ (us : List Ty) (names : List String) (i : Nat) {m' : Module}
    {vs : List ValueRef} {ts : List Ty}, Filling m name sig m' vs ts →
    ∃ vs', Filling m name sig (m'.addParams m.funcs.size m.blocks.size us names i) vs' (ts ++ us)
  | [], _, _, m', vs, ts, h => ⟨vs, by rw [append_nil]; exact h⟩
  | u :: us, names, i, m', vs, ts, h => by
    obtain ⟨vs', h'⟩ := Filling.addParams us names.tail (i + 1)
      (h.add (names.head?.elim Aux.none .name) i u)
    exact ⟨vs', by rw [append_assoc] at h'; exact h'⟩

/-! ## Functions under new names -/

theorem find?_eq_none : m.find? name = none ↔ ∀ f < m.funcs.size, (m.func f).name ≠ name := by
  unfold find? Module.func
  rw [Array.findIdx?_eq_none_iff]
  constructor
  · intro h f hf
    rw [Array.getD_eq_getD_getElem?, Array.getElem?_eq_getElem hf]
    simpa using h _ (Array.getElem_mem hf)
  · intro h x hx
    obtain ⟨f, hf, rfl⟩ := Array.mem_iff_getElem.mp hx
    have := h f hf
    rw [Array.getD_eq_getD_getElem?, Array.getElem?_eq_getElem hf] at this
    simpa using this

/-- If all functions have a body, a function can be defined only under a new name. -/
theorem filling_defineFunction? {names : List String}
    (hall : ∀ f < m.funcs.size, (m.func f).entry.isSome)
    (h : m.defineFunction? name sig names = some (g, m')) :
    m.find? name = none ∧ g = m.funcs.size ∧ ∃ vs, Filling m name sig m' vs sig.params := by
  unfold defineFunction? declareFunction at h
  cases hfind : m.find? name with
  | some f =>
    rw [hfind] at h
    have hf : f < m.funcs.size := by
      exact (Array.findIdx?_eq_some_iff_getElem.mp hfind).1
    have hdecl : (m.func f).isDeclaration = false := by
      unfold Func.isDeclaration
      rw [Option.isNone_eq_false_iff]
      exact hall f hf
    simp [hdecl] at h
  | none =>
    rw [hfind] at h
    simp only [Option.ite_none_right_eq_some, Option.some.injEq, Prod.mk.injEq] at h
    obtain ⟨-, rfl, rfl⟩ := h
    refine ⟨rfl, rfl, ?_⟩
    have hnil := filling_nil m name sig
    have hparams := congrArg Ty.params hnil.added.sig
    obtain ⟨vs, hvs⟩ := hnil.addParams sig.params names 0
    exact ⟨vs, hparams ▸ hvs⟩

namespace Filling

variable (h : Filling m name sig m' vs ts)

include h

theorem grows : Grows m m' :=
  ⟨h.values, h.value, h.noPhi, by rw [h.blocks]; exact Nat.le_succ _,
    fun b hb => by rw [h.block b hb],
    fun b hb => Grows.code_of_values (by rw [h.block b hb]),
    fun b hb _ => Grows.stop_of_like (by rw [h.block b hb]; exact .refl _),
    by rw [h.funcs]; exact Nat.le_succ _, h.func⟩

theorem tidy (ht : Tidy m) : Tidy m' := by
  constructor
  · intro b hb v hv
    rcases Nat.lt_or_ge b m.blocks.size with hlt | hge
    · rw [h.block b hlt] at hv
      exact Nat.lt_of_lt_of_le (ht.inside b hlt v hv) h.values
    · obtain rfl : b = m.blocks.size := by
        have := h.blocks
        omega
      rw [h.entry.values] at hv
      exact h.inside v hv
  · intro b hb ho
    rcases Nat.lt_or_ge b m.blocks.size with hlt | hge
    · rw [h.block b hlt] at ho ⊢
      exact ht.bare b hlt ho
    · obtain rfl : b = m.blocks.size := by
        have := h.blocks
        omega
      exact h.entry.controls

theorem unwritten (hts : ts = sig.params) : Unwritten m' m.funcs.size m.blocks.size := by
  refine ⟨⟨by rw [h.funcs]; exact Nat.lt_succ_self _, h.added.entry,
    by rw [h.blocks]; exact Nat.lt_succ_self _, h.entry.func⟩, h.entry.isTerminated.trans rfl,
    h.entry.values.trans h.added.params.symm, ?_, h.added.params ▸ h.nodup⟩
  rw [h.added.params, h.added.sig, ← hts]
  exact h.args

end Filling

end SsaCompiler.Ssa.Module
