import SsaCompiler.Proofs.Ssa.Complaints
import SsaCompiler.Proofs.Ssa.Definition
import SsaCompiler.Proofs.Ssa.OperandTypes

/-!
# Modules under construction

What holds of a module between any two steps of construction, and with verification makes it a typed
one. Construction knows where the operands come from and which conversion fits which types;
verification compares the types of operands where both sides have been chosen on their own.

A value is fit to be added when its operands may be used and when it wants nothing that verification
would not notice. What holds of a value when it is added stays true, since construction only adds to
a module: `Module.Keeps`.
-/

namespace SsaCompiler.Ssa

open List

/-- Whether verification compares the types of the operands. -/
def Op.isVerified : Op → Bool
  | .load | .store | .add | .sub | .mul | .div | .rem | .and | .or | .icmp | .select
  | .fadd | .fsub | .fmul | .fdiv | .frem => true
  | _ => false

/-- A value that may be added to a module. -/
structure Value.Fits (m : Module) (x : Value) : Prop where
  standard : x.type.Standard
  operand : ∀ a, some a ∈ x.args → m.IsOperand a
  takes : x.op.isVerified = false → Takes m.resultOf x (x.args.map (Option.map m.typeOf))
  other : x.op.isVerified = false → x.op.neverInt → x.type.isInt = false
  callee : x.op = .call → ∃ f < m.funcs.size, x.aux = .callee f

/-- A function with the same head that may have got a body, parameters and blocks. -/
structure Func.Extends (x y : Func) : Prop where
  name : y.name = x.name
  sig : y.sig = x.sig
  entry : y.isDeclaration → x.isDeclaration
  params : x.params.length ≤ y.params.length
  blocks : ∀ b ∈ x.blocks, b ∈ y.blocks

theorem Func.Extends.refl (x : Func) : x.Extends x :=
  ⟨rfl, rfl, id, Nat.le_refl _, fun _ => id⟩

theorem Func.Extends.trans {x y z : Func} (h : x.Extends y) (k : y.Extends z) : x.Extends z :=
  ⟨k.name.trans h.name, k.sig.trans h.sig, fun hz => h.entry (k.entry hz),
    Nat.le_trans h.params k.params, fun b hb => k.blocks b (h.blocks b hb)⟩

theorem Func.Extends.of_like {x y : Func} (h : y.Like x) (hblocks : y.blocks = x.blocks) :
    x.Extends y :=
  ⟨h.name, h.sig, fun hy => by rwa [Func.isDeclaration, h.entry] at hy,
    Nat.le_of_eq (by rw [h.params]), fun b hb => hblocks ▸ hb⟩

/-- Whether a name and a type are those of a function of the target. -/
def IsRuntime (x : Func) : Prop :=
  (Target.external? x.name).isSome ∧
    (x.name = Target.malloc.name → x.sig.result.isInt = false)

namespace Module

/-- Whether a function has a body. -/
def HasBody (m : Module) (f : FuncRef) : Prop :=
  f < m.funcs.size ∧ (m.func f).isDeclaration = false

/-- Things have been added to a module, and what was there means the same. -/
structure Keeps (m m' : Module) : Prop where
  values : m.values.size ≤ m'.values.size
  value : ∀ v < m.values.size, (m'.value v).Like (m.value v)
  blocks : m.blocks.size ≤ m'.blocks.size
  home : ∀ b < m.blocks.size, (m'.block b).func = (m.block b).func
  funcs : m.funcs.size ≤ m'.funcs.size
  func : ∀ f < m.funcs.size, (m.func f).Extends (m'.func f)

/-- What holds of a module between two steps of construction. -/
structure Lowered (m : Module) : Prop where
  value : ∀ v < m.values.size, (m.value v).Fits m
  control : ∀ b a, some a ∈ (m.block b).controls → m.IsOperand a
  home : ∀ b < m.blocks.size,
    m.HasBody (m.block b).func ∧ b ∈ (m.func (m.block b).func).blocks
  entry : ∀ f e, (m.func f).entry = some e → e < m.blocks.size
  param : ∀ f, ∀ v ∈ (m.func f).params, m.IsOperand v
  sig : ∀ f, (m.func f).sig.Standard
  text : ∀ g ∈ m.globals, m.IsOperand g.value
  declared : ∀ f < m.funcs.size, (m.func f).isDeclaration → IsRuntime (m.func f)

variable {m m' : Module} {b : BlockRef} {v a : ValueRef} {f : FuncRef} {x y : Value}

theorem func_of_size_le (h : m.funcs.size ≤ f) : m.func f = default := by
  unfold func
  rw [Array.getD_eq_getD_getElem?, Array.getElem?_eq_none h]
  rfl

theorem block_of_size_le (h : m.blocks.size ≤ b) : m.block b = default := by
  unfold block
  rw [Array.getD_eq_getD_getElem?, Array.getElem?_eq_none h]
  rfl

/-! ## What is kept -/

namespace Keeps

theorem refl (m : Module) : Keeps m m :=
  ⟨Nat.le_refl _, fun _ _ => .refl _, Nat.le_refl _, fun _ _ => rfl, Nat.le_refl _,
    fun _ _ => .refl _⟩

theorem trans {m₁ m₂ m₃ : Module} (h : Keeps m₁ m₂) (k : Keeps m₂ m₃) : Keeps m₁ m₃ := by
  refine ⟨Nat.le_trans h.values k.values, fun v hv => ?_, Nat.le_trans h.blocks k.blocks,
    fun b hb => ?_, Nat.le_trans h.funcs k.funcs, fun f hf => ?_⟩
  · exact (k.value v (Nat.lt_of_lt_of_le hv h.values)).trans (h.value v hv)
  · exact (k.home b (Nat.lt_of_lt_of_le hb h.blocks)).trans (h.home b hb)
  · exact (h.func f hf).trans (k.func f (Nat.lt_of_lt_of_le hf h.funcs))

variable (h : Keeps m m')

include h

theorem typeOf_eq (hv : v < m.values.size) : m'.typeOf v = m.typeOf v :=
  (h.value v hv).type

theorem resultOf_eq (hf : f < m.funcs.size) : m'.resultOf f = m.resultOf f :=
  congrArg Ty.result (h.func f hf).sig

theorem hasBody (hf : m.HasBody f) : m'.HasBody f := by
  refine ⟨Nat.lt_of_lt_of_le hf.1 h.funcs, Bool.eq_false_iff.mpr fun hdecl => ?_⟩
  exact Bool.eq_false_iff.mp hf.2 ((h.func f hf.1).entry hdecl)

/-- Of what may be used, nothing becomes a number of printed bytes. -/
theorem isOperand (hm : m.Lowered) (ha : m.IsOperand a) : m'.IsOperand a := by
  refine ⟨Nat.lt_of_lt_of_le ha.1 h.values, fun hcount => ha.2 ?_⟩
  obtain ⟨hop, f, haux, hdecl, hname⟩ := hcount
  have hlike := h.value a ha.1
  rw [hlike.op] at hop
  rw [hlike.aux] at haux
  obtain ⟨g, hg, hcallee⟩ := (hm.value a ha.1).callee hop
  obtain rfl : g = f := by simpa [haux] using hcallee.symm
  exact ⟨hop, g, haux, (h.func g hg).entry hdecl, (h.func g hg).name.symm.trans hname⟩

theorem fits (hm : m.Lowered) (hx : x.Fits m) (hy : y.Like x) : y.Fits m' := by
  have htypes : y.args.map (Option.map m'.typeOf) = x.args.map (Option.map m.typeOf) := by
    rw [hy.args]
    refine map_congr_left fun o ho => ?_
    cases o with
    | none => rfl
    | some a => exact congrArg some (h.typeOf_eq (hx.operand a ho).1)
  refine ⟨hy.type ▸ hx.standard, fun a ha => ?_, fun hop => ?_, fun hop => ?_, fun hop => ?_⟩
  · rw [hy.args] at ha
    exact h.isOperand hm (hx.operand a ha)
  · rw [hy.op] at hop
    have htakes := hx.takes hop
    rw [htypes]
    unfold Takes at htakes ⊢
    rw [hy.op, hy.type, hy.aux]
    cases hxop : x.op <;> rw [hxop] at htakes <;> try exact htakes
    -- a call keeps the result of the function that it calls
    intro f haux
    obtain ⟨g, hg, hcallee⟩ := hx.callee hxop
    obtain rfl : g = f := by simpa [haux] using hcallee.symm
    rw [h.resultOf_eq hg]
    exact htakes g haux
  · rw [hy.op] at hop ⊢
    rw [hy.type]
    exact hx.other hop
  · rw [hy.op] at hop
    obtain ⟨f, hf, haux⟩ := hx.callee hop
    exact ⟨f, Nat.lt_of_lt_of_le hf h.funcs, hy.aux.trans haux⟩

end Keeps

/-- A module stays as it should be if what is added is fit. -/
theorem Lowered.of_keeps (hm : m.Lowered) (hk : Keeps m m')
    (hvalue : ∀ v < m'.values.size, m.values.size ≤ v → ∃ x : Value, x.Fits m ∧ (m'.value v).Like x)
    (hcontrol : ∀ b a, some a ∈ (m'.block b).controls → m.IsOperand a)
    (hhome : ∀ b < m'.blocks.size, m.blocks.size ≤ b →
      m'.HasBody (m'.block b).func ∧ b ∈ (m'.func (m'.block b).func).blocks)
    (hentry : ∀ f e, (m'.func f).entry = some e →
      (m.func f).entry = some e ∨ e < m'.blocks.size)
    (hparam : ∀ f, ∀ v ∈ (m'.func f).params, m'.IsOperand v)
    (hfunc : ∀ f < m'.funcs.size, m.funcs.size ≤ f → (m'.func f).sig.Standard ∧
      ((m'.func f).isDeclaration → IsRuntime (m'.func f)))
    (htext : ∀ g ∈ m'.globals, m'.IsOperand g.value) : m'.Lowered := by
  refine ⟨fun v hv => ?_, fun b a ha => hk.isOperand hm (hcontrol b a ha), fun b hb => ?_,
    fun f e he => (hentry f e he).elim (fun h => Nat.lt_of_lt_of_le (hm.entry f e h) hk.blocks) id,
    hparam, fun f => ?_, htext, fun f hf hdecl => ?_⟩
  · by_cases hlt : v < m.values.size
    · exact hk.fits hm (hm.value v hlt) (hk.value v hlt)
    · obtain ⟨x, hx, hlike⟩ := hvalue v hv (Nat.le_of_not_lt hlt)
      exact hk.fits hm hx hlike
  · by_cases hlt : b < m.blocks.size
    · obtain ⟨hbody, hmem⟩ := hm.home b hlt
      rw [hk.home b hlt]
      exact ⟨hk.hasBody hbody, (hk.func _ hbody.1).blocks b hmem⟩
    · exact hhome b hb (Nat.le_of_not_lt hlt)
  · by_cases hf : f < m'.funcs.size
    · by_cases hlt : f < m.funcs.size
      · rw [(hk.func f hlt).sig]
        exact hm.sig f
      · exact (hfunc f hf (Nat.le_of_not_lt hlt)).1
    · rw [func_of_size_le (Nat.le_of_not_lt hf)]
      exact Ty.standard_void
  · by_cases hlt : f < m.funcs.size
    · have hext := hk.func f hlt
      have hold := hm.declared f hlt (hext.entry hdecl)
      unfold IsRuntime at hold ⊢
      rwa [hext.name, hext.sig]
    · exact (hfunc f hf (Nat.le_of_not_lt hlt)).2 hdecl

/-! ## New values -/

namespace Emits

variable {place : Option BlockRef} (h : Emits m place x m')

include h

theorem keeps : Keeps m m' :=
  ⟨by rw [h.size]; exact Nat.le_succ _, h.old, Nat.le_of_eq h.blocks.symm,
    fun b _ => by rw [h.block_eq],
    Nat.le_of_eq h.funcs.symm, fun f _ => .of_like (h.func f) (h.lists f)⟩

theorem lowered (hm : m.Lowered) (hx : x.Fits m) : m'.Lowered := by
  have hk := h.keeps
  refine hm.of_keeps hk (fun v hv hle => ⟨x, hx, ?_⟩) (fun b a ha => ?_)
    (fun b hb hle => absurd hb (by rw [h.blocks]; exact Nat.not_lt_of_le hle))
    (fun f e he => .inl ((h.func f).entry ▸ he)) (fun f v hv => ?_)
    (fun f hf hle => absurd hf (by rw [h.funcs]; exact Nat.not_lt_of_le hle)) (fun g hg => ?_)
  · obtain rfl : v = m.values.size := by
      have := h.size
      omega
    exact h.new
  · rw [h.block_eq] at ha
    exact hm.control b a ha
  · rw [(h.func f).params] at hv
    exact hk.isOperand hm (hm.param f v hv)
  · rw [h.globals] at hg
    exact hk.isOperand hm (hm.text g hg)

/-- What has been added may be used, unless it is a call of a function without a body. -/
theorem isOperand (hop : x.op = .call → ∃ f, x.aux = .callee f ∧ m.HasBody f) :
    m'.IsOperand m.values.size := by
  refine ⟨by rw [h.size]; exact Nat.lt_succ_self _, fun hcount => ?_⟩
  obtain ⟨hcall, f, haux, hdecl, -⟩ := hcount
  obtain ⟨g, hcallee, hbody⟩ := hop (h.new.op.symm.trans hcall)
  rw [h.new.aux, hcallee] at haux
  obtain rfl : g = f := by simpa using haux
  rw [Func.isDeclaration, (h.func g).entry] at hdecl
  exact Bool.eq_false_iff.mp hbody.2 hdecl

end Emits

/-! ## New blocks and functions -/

theorem Lowered.newBlock (hm : m.Lowered) (hf : m.HasBody f) (hint : String) :
    (m.newBlock f hint).2.Lowered ∧ Keeps m (m.newBlock f hint).2 := by
  have h := addsBlock_newBlock m f hint
  have hlists := fun g => (func_newBlock m f g hint).1
  have hglobals : (m.newBlock f hint).2.globals = m.globals := rfl
  generalize (m.newBlock f hint).2 = m' at h hlists hglobals
  have hvalue : ∀ v, m'.value v = m.value v := fun v => by unfold Module.value; rw [h.values]
  have hk : Keeps m m' := by
    refine ⟨Nat.le_of_eq (by rw [h.values]), fun v _ => hvalue v ▸ .refl _,
      by rw [h.size]; exact Nat.le_succ _, fun b hb => by rw [h.old b hb],
      Nat.le_of_eq h.funcs.symm, fun g _ => ?_⟩
    have hlike := h.func g
    refine ⟨hlike.name, hlike.sig, fun hdecl => by rwa [Func.isDeclaration, hlike.entry] at hdecl,
      Nat.le_of_eq (by rw [hlike.params]), fun b hb => ?_⟩
    rw [hlists]
    split
    · exact mem_append_left _ hb
    · exact hb
  refine ⟨hm.of_keeps hk (fun v hv hle => ?_) (fun b a ha => ?_) (fun b hb hle => ?_)
    (fun g e he => .inl ((h.func g).entry ▸ he)) (fun g v hv => ?_) (fun g hg hle => ?_)
    (fun g hg => ?_), hk⟩
  · rw [h.values] at hv
    exact absurd hv (Nat.not_lt_of_le hle)
  · by_cases hlt : b < m.blocks.size
    · rw [h.old b hlt] at ha
      exact hm.control b a ha
    · by_cases heq : b = m.blocks.size
      · rw [heq, h.new.controls] at ha
        exact absurd ha not_mem_nil
      · have hle : m'.blocks.size ≤ b := by
          rw [h.size]
          exact Nat.lt_of_le_of_ne (Nat.le_of_not_lt hlt) (Ne.symm heq)
        rw [block_of_size_le hle] at ha
        exact absurd ha not_mem_nil
  · obtain rfl : b = m.blocks.size := by
      have := h.size
      omega
    rw [h.new.func, hlists, if_pos ⟨rfl, hf.1⟩]
    exact ⟨hk.hasBody hf, mem_append_right _ (mem_singleton_self _)⟩
  · rw [(h.func g).params] at hv
    exact hk.isOperand hm (hm.param g v hv)
  · rw [h.funcs] at hg
    exact absurd hg (Nat.not_lt_of_le hle)
  · rw [hglobals] at hg
    exact hk.isOperand hm (hm.text g hg)

/-- A function of the target is declared when it is first needed. -/
theorem Lowered.declareFunction {name : String} {sig : Ty} (hm : m.Lowered)
    (hsig : sig.Standard) (hrun : IsRuntime { name := name, sig := sig }) :
    (m.declareFunction name sig).2.Lowered ∧ Keeps m (m.declareFunction name sig).2 ∧
      (m.declareFunction name sig).1 < (m.declareFunction name sig).2.funcs.size := by
  unfold Module.declareFunction
  cases hfind : m.find? name with
  | some f =>
    refine ⟨hm, .refl m, ?_⟩
    exact (Array.findIdx?_eq_some_iff_getElem.mp hfind).1
  | none =>
    have hfunc : ∀ g,
        Module.func { m with funcs := m.funcs.push { name := name, sig := sig } } g =
        if g = m.funcs.size then { name := name, sig := sig } else m.func g := fun g =>
      getD_push m.funcs _ g
    have hsize : (m.funcs.push { name := name, sig := sig }).size = m.funcs.size + 1 :=
      Array.size_push ..
    have hk : Keeps m { m with funcs := m.funcs.push { name := name, sig := sig } } := by
      refine ⟨Nat.le_refl _, fun _ _ => .refl _, Nat.le_refl _, fun _ _ => rfl,
        by rw [hsize]; exact Nat.le_succ _, fun g hg => ?_⟩
      rw [hfunc, if_neg (Nat.ne_of_lt hg)]
      exact .refl _
    refine ⟨hm.of_keeps hk (fun v hv hle => absurd hv (Nat.not_lt_of_le hle)) hm.control
      (fun b hb hle => absurd hb (Nat.not_lt_of_le hle)) (fun g e he => ?_) (fun g v hv => ?_)
      (fun g hg hle => ?_) (fun g hg => hk.isOperand hm (hm.text g hg)), hk,
      by rw [hsize]; exact Nat.lt_succ_self _⟩
    · rw [hfunc] at he
      split at he
      · exact nomatch he
      · exact .inl he
    · rw [hfunc] at hv
      split at hv
      · exact absurd hv not_mem_nil
      · exact hk.isOperand hm (hm.param g v hv)
    · obtain rfl : g = m.funcs.size := by
        have hg : g < m.funcs.size + 1 := hsize ▸ hg
        omega
      rw [hfunc, if_pos rfl]
      exact ⟨hsig, fun _ => hrun⟩

theorem Lowered.openFunc {sig : Ty} (hm : m.Lowered) (hsig : sig.Standard) (name : String) :
    let m₁ : Module := { m with funcs := m.funcs.push { name := name, sig := sig } }
    let m₂ := (m₁.newBlock m.funcs.size "entry").2
    let m₃ := m₂.modifyFunc m.funcs.size fun fn => { fn with entry := some m.blocks.size }
    m₃.Lowered ∧ Keeps m m₃ ∧ m₃.HasBody m.funcs.size := by
  intro m₁ m₂ m₃
  have h : Filling m name sig m₃ [] [] := filling_nil m name sig
  have hlists : ∀ g, (m₃.func g).blocks =
      if g = m.funcs.size then [m.blocks.size] else (m.func g).blocks := by
    intro g
    have hm₁ : m₁.func g = if g = m.funcs.size then { name := name, sig := sig } else m.func g :=
      getD_push m.funcs _ g
    have hm₃ : (m₃.func g).blocks = (m₂.func g).blocks := by
      rw [func_modifyFunc]
      split <;> rfl
    rw [hm₃, (func_newBlock ..).1, hm₁]
    by_cases hg : g = m.funcs.size
    · have hlt : g < m₁.funcs.size := by
        rw [hg]
        exact Nat.lt_of_lt_of_eq (Nat.lt_succ_self _) (Array.size_push ..).symm
      rw [if_pos hg, if_pos hg, if_pos ⟨hg.symm, hlt⟩]
      rfl
    · rw [if_neg hg, if_neg hg, if_neg fun h => hg h.1.symm]
  have hglobals : m₃.globals = m.globals := rfl
  have hvalues : m₃.values = m.values := rfl
  generalize m₃ = m' at h hlists hglobals hvalues
  have hbody : m'.HasBody m.funcs.size :=
    ⟨by rw [h.funcs]; exact Nat.lt_succ_self _, by rw [Func.isDeclaration, h.added.entry]; rfl⟩
  have hk : Keeps m m' := by
    refine ⟨h.values, h.value, by rw [h.blocks]; exact Nat.le_succ _,
      fun b hb => by rw [h.block b hb],
      by rw [h.funcs]; exact Nat.le_succ _, fun g hg => .of_like (h.func g hg) ?_⟩
    rw [hlists, if_neg (Nat.ne_of_lt hg)]
  refine ⟨hm.of_keeps hk (fun v hv hle => ?_) (fun b a ha => ?_) (fun b hb hle => ?_)
    (fun g e he => ?_) (fun g v hv => ?_) (fun g hg hle => ?_) (fun g hg => ?_), hk, hbody⟩
  · rw [hvalues] at hv
    exact absurd hv (Nat.not_lt_of_le hle)
  · rcases Nat.lt_trichotomy b m.blocks.size with hlt | heq | hgt
    · rw [h.block b hlt] at ha
      exact hm.control b a ha
    · rw [heq, h.entry.controls] at ha
      exact absurd ha not_mem_nil
    · rw [block_of_size_le (h.blocks ▸ hgt)] at ha
      exact absurd ha not_mem_nil
  · obtain rfl : b = m.blocks.size := by
      have := h.blocks
      omega
    rw [h.entry.func, hlists, if_pos rfl]
    exact ⟨hbody, mem_singleton_self _⟩
  · rcases Nat.lt_trichotomy g m.funcs.size with hlt | heq | hgt
    · exact .inl ((h.func g hlt).entry ▸ he)
    · rw [heq, h.added.entry] at he
      cases he
      exact .inr (by rw [h.blocks]; exact Nat.lt_succ_self _)
    · rw [func_of_size_le (h.funcs ▸ hgt)] at he
      exact nomatch he
  · rcases Nat.lt_trichotomy g m.funcs.size with hlt | heq | hgt
    · rw [(h.func g hlt).params] at hv
      exact hk.isOperand hm (hm.param g v hv)
    · rw [heq, h.added.params] at hv
      exact absurd hv not_mem_nil
    · rw [func_of_size_le (h.funcs ▸ hgt)] at hv
      exact absurd hv not_mem_nil
  · obtain rfl : g = m.funcs.size := by
      have := h.funcs
      omega
    rw [h.added.sig]
    exact ⟨hsig, fun hdecl => absurd hdecl (Bool.eq_false_iff.mp hbody.2)⟩
  · rw [hglobals] at hg
    exact hk.isOperand hm (hm.text g hg)

theorem Lowered.addParam (hm : m.Lowered) (hv : m.IsOperand v) (f : FuncRef) :
    (m.modifyFunc f fun fn => { fn with params := fn.params ++ [v] }).Lowered ∧
      Keeps m (m.modifyFunc f fun fn => { fn with params := fn.params ++ [v] }) := by
  have hfunc := fun g => func_modifyFunc m f g fun fn => { fn with params := fn.params ++ [v] }
  have hsize : (m.modifyFunc f fun fn => { fn with params := fn.params ++ [v] }).funcs.size =
      m.funcs.size := Array.size_modify ..
  have hk : Keeps m (m.modifyFunc f fun fn => { fn with params := fn.params ++ [v] }) := by
    refine ⟨Nat.le_refl _, fun _ _ => .refl _, Nat.le_refl _, fun _ _ => rfl,
      Nat.le_of_eq hsize.symm, fun g hg => ?_⟩
    rw [hfunc]
    split
    · exact ⟨rfl, rfl, id, by simp, fun _ => id⟩
    · exact .refl _
  refine ⟨hm.of_keeps hk (fun v hv hle => absurd hv (Nat.not_lt_of_le hle)) hm.control
    (fun b hb hle => absurd hb (Nat.not_lt_of_le hle)) (fun g e he => ?_) (fun g w hw => ?_)
    (fun g hg hle => absurd (hsize ▸ hg) (Nat.not_lt_of_le hle))
    (fun g hg => hk.isOperand hm (hm.text g hg)), hk⟩
  · rw [hfunc] at he
    split at he <;> exact .inl he
  · rw [hfunc] at hw
    split at hw
    · rcases mem_append.mp hw with hw | hw
      · exact hk.isOperand hm (hm.param g w hw)
      · rw [mem_singleton.mp hw]
        exact hk.isOperand hm hv
    · exact hk.isOperand hm (hm.param g w hw)

/-- Values for all parameters of a function, behind those that it has. -/
theorem Lowered.addParams (f : FuncRef) (e : BlockRef) :
    ∀ (ts : List Ty) (names : List String) (i : Nat) {m : Module}, m.Lowered → f < m.funcs.size →
      (∀ t ∈ ts, t.Standard) →
      (m.addParams f e ts names i).Lowered ∧ Keeps m (m.addParams f e ts names i) ∧
        ((m.addParams f e ts names i).func f).params.length =
          (m.func f).params.length + ts.length
  | [], _, _, m, hm, _, _ => ⟨hm, .refl m, rfl⟩
  | t :: ts, names, i, m, hm, hf, hts => by
    let x : Value :=
      { op := .arg, type := t, auxInt := i, aux := names.head?.elim Aux.none .name }
    have hx : x.Fits m :=
      ⟨hts t (mem_cons_self ..), fun a ha => absurd ha not_mem_nil, fun _ => trivial,
        fun _ h => absurd h Bool.false_ne_true, fun h => nomatch h⟩
    have he := emits_newValue m e x
    have hv := he.isOperand fun h => nomatch h
    obtain ⟨hm₂, hk₂⟩ := (he.lowered hm hx).addParam hv f
    have hf₁ : f < (m.newValue e false x).2.funcs.size := by
      rw [he.funcs]
      exact hf
    obtain ⟨hm₃, hk₃, hlen⟩ := Lowered.addParams f e ts names.tail (i + 1) hm₂
      (Nat.lt_of_lt_of_le hf₁ hk₂.funcs) fun u hu => hts u (mem_cons_of_mem _ hu)
    refine ⟨hm₃, he.keeps.trans (hk₂.trans hk₃), hlen.trans ?_⟩
    rw [func_modifyFunc, if_pos ⟨rfl, hf₁⟩, length_append, (he.func f).params,
      length_cons]
    simp only [length_cons, length_nil]
    omega

/-- A function is defined under a name that no declared function has. -/
theorem Lowered.defineFunction? {name : String} {sig : Ty} {names : List String} (hm : m.Lowered)
    (hsig : sig.Standard)
    (hname : ∀ f < m.funcs.size, (m.func f).isDeclaration → (m.func f).name ≠ name)
    (h : m.defineFunction? name sig names = some (f, m')) :
    m'.Lowered ∧ Keeps m m' ∧ m'.HasBody f ∧ (m'.func f).params.length = sig.params.length := by
  unfold Module.defineFunction? Module.declareFunction at h
  cases hfind : m.find? name with
  | some g =>
    rw [hfind] at h
    simp only [Option.ite_none_right_eq_some] at h
    obtain ⟨hg, hp, -⟩ := Array.findIdx?_eq_some_iff_getElem.mp hfind
    refine absurd ?_ (hname g hg h.1)
    unfold Module.func
    rw [Array.getD_eq_getD_getElem?, Array.getElem?_eq_getElem hg]
    exact eq_of_beq hp
  | none =>
    rw [hfind] at h
    simp only [Option.ite_none_right_eq_some, Option.some.injEq, Prod.mk.injEq] at h
    obtain ⟨-, rfl, rfl⟩ := h
    obtain ⟨hm₃, hk₃, hbody⟩ := hm.openFunc hsig name
    have hadded := (filling_nil m name sig).added
    have hparams := congrArg Ty.params hadded.sig
    obtain ⟨hm₄, hk₄, hlen⟩ := Lowered.addParams m.funcs.size m.blocks.size sig.params names 0 hm₃
      hbody.1 fun t ht => hsig.params ht
    rw [hadded.params] at hlen
    rw [← hparams] at hm₄ hk₄ hlen
    refine ⟨hm₄, hk₃.trans hk₄, hk₄.hasBody hbody, hlen.trans ?_⟩
    rw [hparams]
    exact Nat.zero_add _

/-! ## Texts -/

theorem Lowered.globalString (hm : m.Lowered) (name data : String) :
    (m.globalString name data).2.Lowered ∧ Keeps m (m.globalString name data).2 ∧
      (m.globalString name data).2.IsOperand (m.globalString name data).1 := by
  unfold Module.globalString
  cases hfind : m.globals.find? fun g => g.name == name with
  | some g => exact ⟨hm, .refl m, hm.text g (Array.mem_of_find?_eq_some hfind)⟩
  | none =>
    let x : Value := { op := .global, type := .pointer (.int 8), aux := .global m.globals.size }
    have hx : x.Fits m :=
      ⟨rfl, fun a ha => absurd ha not_mem_nil, fun _ => trivial, fun _ _ => rfl,
        fun h => nomatch h⟩
    have he := emits_addConst m x
    have hm₁ := he.lowered hm hx
    have hv := he.isOperand fun h => nomatch h
    have hk : ∀ gs, Keeps (m.addConst x).2 { (m.addConst x).2 with globals := gs } := fun _ =>
      ⟨Nat.le_refl _, fun _ _ => .refl _, Nat.le_refl _, fun _ _ => rfl, Nat.le_refl _,
        fun _ _ => .refl _⟩
    refine ⟨hm₁.of_keeps (hk _) (fun v hv hle => absurd hv (Nat.not_lt_of_le hle)) hm₁.control
      (fun b hb hle => absurd hb (Nat.not_lt_of_le hle)) (fun _ _ => .inl)
      (fun f v hv => (hk _).isOperand hm₁ (hm₁.param f v hv))
      (fun f hf hle => absurd hf (Nat.not_lt_of_le hle)) (fun g hg => ?_),
      he.keeps.trans (hk _), (hk _).isOperand hm₁ hv⟩
    rcases Array.mem_push.mp hg with hg | rfl
    · exact (hk _).isOperand hm₁ (hm₁.text g hg)
    · exact (hk _).isOperand hm₁ hv

/-! ## Ends of blocks -/

namespace Ends

variable {kind : BlockKind} {controls : List (Option ValueRef)} {succs : List BlockRef}
  (h : Ends m b kind controls succs m')

include h

theorem keeps : Keeps m m' := by
  refine ⟨Nat.le_of_eq h.size.symm, fun v _ => h.value v, Nat.le_of_eq h.blocks.symm,
    fun c _ => h.home_eq c, Nat.le_of_eq (by rw [h.funcs]), fun f _ => ?_⟩
  rw [h.func_eq]
  exact .refl _

theorem lowered (hm : m.Lowered) (hcs : ∀ a, some a ∈ controls → m.IsOperand a) : m'.Lowered := by
  have hk := h.keeps
  refine hm.of_keeps hk (fun v hv hle => absurd (h.size ▸ hv) (Nat.not_lt_of_le hle))
    (fun c a ha => ?_) (fun b hb hle => absurd (h.blocks ▸ hb) (Nat.not_lt_of_le hle))
    (fun f e he => .inl (h.func_eq f ▸ he))
    (fun f v hv => hk.isOperand hm (hm.param f v (h.func_eq f ▸ hv)))
    (fun f hf hle => absurd (h.funcs ▸ hf) (Nat.not_lt_of_le hle))
    (fun g hg => hk.isOperand hm (hm.text g (h.globals ▸ hg)))
  by_cases hc : c = b
  · subst hc
    rw [h.here.controls] at ha
    exact hcs a ha
  · rw [(h.there c hc).controls] at ha
    exact hm.control c a ha

end Ends

/-! ## Verification -/

theorem isInt_of_isFloat {t : Ty} (h : t.isFloat) : t.isInt = false := by
  cases t <;> first | rfl | exact absurd h Bool.false_ne_true

theorem takes_of_wrongOperands (hop : x.op.isVerified) (hnone : none ∉ x.args)
    (h : m.wrongOperands? x ((x.args.filterMap id).map m.value) = none) :
    Takes m.resultOf x (x.args.map (Option.map m.typeOf)) ∧
      (x.op.neverInt → x.type.isInt = false) := by
  rw [map_typeOf_eq hnone]
  generalize (x.args.filterMap id).map m.value = args at h
  unfold Takes
  cases hxop : x.op <;> rw [hxop] at hop <;> try exact absurd hop Bool.false_ne_true
  all_goals
    rcases args with _ | ⟨p, _ | ⟨q, _ | ⟨r, _ | ⟨s, args⟩⟩⟩⟩ <;>
      simp [wrongOperands?, hxop, wrongCount?, unless?] at h
    all_goals simp [h, Op.neverInt, isInt_of_isFloat] <;> exact h.1 ▸ h.2

theorem func_of_mem_blocks {e : BlockRef} (hverify : m.verify f = [])
    (he : (m.func f).entry = some e) (hb : b ∈ (m.func f).blocks) : (m.block b).func = f :=
  (blockComplaints_eq_nil.mp (((verify_eq_nil he).mp hverify).2.2.1 b hb)).2.1

section

variable (hm : m.Lowered) (hverify : ∀ f, m.verify f = [])

include hm hverify

/-- No complaint about a block of the table, since its function has it. -/
theorem Lowered.blockComplaints (hb : b < m.blocks.size) :
    m.blockComplaints (m.block b).func (m.func (m.block b).func) b = [] := by
  obtain ⟨⟨-, hdecl⟩, hmem⟩ := hm.home b hb
  obtain ⟨e, he⟩ := Option.isSome_iff_exists.mp (Option.isNone_eq_false_iff.mp hdecl)
  exact ((verify_eq_nil he).mp (hverify _)).2.2.1 b hmem

theorem Lowered.takes (hv : v ∈ (m.block b).values) :
    Takes m.resultOf (m.value v) (m.argTypes v) ∧
      ((m.value v).op.neverInt → (m.typeOf v).isInt = false) := by
  have hb : b < m.blocks.size := by
    refine Nat.lt_of_not_le fun hle => ?_
    rw [block_of_size_le hle] at hv
    exact absurd hv not_mem_nil
  have hvalues := (blockComplaints_eq_nil.mp (hm.blockComplaints hverify hb)).2.2.1 v hv
  obtain ⟨hblock, -, hnone, -, hwrong⟩ := valueComplaints_eq_nil.mp hvalues
  cases hop : (m.value v).op.isVerified with
  | true => exact takes_of_wrongOperands hop hnone hwrong
  | false =>
    have hfits := hm.value v (lt_size_of_block hblock)
    exact ⟨hfits.takes hop, hfits.other hop⟩

theorem Lowered.endsWell (hb : b < m.blocks.size) :
    EndsWell (m.block b).kind (m.block b).succs.length
      ((m.block b).controls.map (Option.map m.typeOf)) (m.resultOf (m.block b).func) :=
  terminatorComplaints_eq_nil.mp
    (blockComplaints_eq_nil.mp (hm.blockComplaints hverify hb)).2.2.2.1

/-- A module that has been constructed and verified is typed. -/
theorem Lowered.typed : m.Typed where
  standard v := by
    by_cases hv : v < m.values.size
    · exact (hm.value v hv).standard
    · rw [typeOf, value_of_size_le (Nat.le_of_not_lt hv)]
      exact Ty.standard_void
  constant v hconst hop := by
    by_cases hv : v < m.values.size
    · refine (hm.value v hv).other ?_ hop
      cases hxop : (m.value v).op <;> rw [hxop] at hconst <;>
        first | rfl | exact absurd hconst Bool.false_ne_true
    · rw [value_of_size_le (Nat.le_of_not_lt hv)] at hconst
      exact absurd hconst Bool.false_ne_true
  other hv := (hm.takes hverify hv).2
  takes hv := (hm.takes hverify hv).1
  operand {b v a} hv ha := by
    by_cases hlt : v < m.values.size
    · exact (hm.value v hlt).operand a ha
    · rw [value_of_size_le (Nat.le_of_not_lt hlt)] at ha
      exact absurd ha not_mem_nil
  control ha := hm.control _ _ ha
  ret {b a} hkind hhead := by
    by_cases hb : b < m.blocks.size
    · have hends := hm.endsWell hverify hb
      obtain ⟨cs, hcs⟩ : ∃ cs, (m.block b).controls = some a :: cs := by
        cases hc : (m.block b).controls with
        | nil => exact absurd (hc ▸ hhead) (by simp)
        | cons c cs => exact ⟨cs, by simpa [hc] using hhead⟩
      rw [hkind, hcs] at hends
      exact hends.2
    · rw [block_of_size_le (Nat.le_of_not_lt hb)] at hkind
      exact absurd hkind (by decide)
  branch {b} hkind := by
    by_cases hb : b < m.blocks.size
    · have hends := hm.endsWell hverify hb
      rw [hkind] at hends
      exact Nat.le_of_eq hends.2.symm
    · rw [block_of_size_le (Nat.le_of_not_lt hb)] at hkind
      exact absurd hkind (by decide)
  succ {b s} hs := by
    by_cases hb : b < m.blocks.size
    · obtain ⟨⟨-, hdecl⟩, -⟩ := hm.home b hb
      obtain ⟨e, he⟩ := Option.isSome_iff_exists.mp (Option.isNone_eq_false_iff.mp hdecl)
      have hedges := edgeComplaints_eq_nil.mp
        (blockComplaints_eq_nil.mp (hm.blockComplaints hverify hb)).2.2.2.2.1
      exact func_of_mem_blocks (hverify _) he (hedges.1 s hs).1
    · rw [block_of_size_le (Nat.le_of_not_lt hb)] at hs
      exact absurd hs not_mem_nil
  entry {f e} he :=
    func_of_mem_blocks (hverify f) he
      (mem_of_mem_head? ((verify_eq_nil he).mp (hverify f)).1)
  allocator {f} hdecl hname := by
    by_cases hf : f < m.funcs.size
    · exact (hm.declared f hf hdecl).2 hname
    · rw [func_of_size_le (Nat.le_of_not_lt hf)] at hname
      exact absurd hname (by decide)

end

end Module

end SsaCompiler.Ssa
