import SsaCompiler.Proofs.Lowering.Operations

/-!
# Values of expressions

Lowering hands values on from one operation to the next. What is true of the single operations is true
of a whole expression: it leaves the open blocks as they are, and its value may be used. Blocks that are
made on the way get their ends on the way, and the helper functions that are defined when they are needed
have only blocks with ends. This takes that the variables of the expression have storage, that no output
stands where a value is expected, and that every method that is called has its function.
-/

namespace SsaCompiler

open List

theorem Primitive.isInt_machineType {p : Primitive} (h : p.isFloat) :
    p.machineType.isInt = false := by
  cases p <;> first | rfl | exact absurd h (by decide)

/-- What is asked under two premises: `p` under the one, and `q` under the other. -/
structure Asks (a b p q : Prop) : Prop where
  first : a → p
  second : b → q

namespace Asks

variable {a b p p' q q' : Prop}

theorem mono (h : Asks a b p q) (hp : p → p') (hq : q → q') : Asks a b p' q' :=
  ⟨fun ha => hp (h.first ha), fun hb => hq (h.second hb)⟩

theorem left (h : Asks a b (p ∧ p') (q ∧ q')) : Asks a b p q :=
  h.mono And.left And.left

theorem right (h : Asks a b (p ∧ p') (q ∧ q')) : Asks a b p' q' :=
  h.mono And.right And.right

section

variable {c d : Bool}

theorem never (h : Asks a b p (false = true)) : ¬ b :=
  fun hb => Bool.false_ne_true (h.second hb)

theorem only (h : Asks a b p (false = true)) : Asks a b p q :=
  ⟨h.first, fun hb => absurd hb h.never⟩

theorem onlyLeft (h : Asks a b ((c && d) = true) (false = true)) : Asks a b (c = true) q :=
  h.only.mono (fun h => (Bool.and_eq_true_iff.mp h).1) id

theorem onlyRight (h : Asks a b ((c && d) = true) (false = true)) : Asks a b (d = true) q :=
  h.only.mono (fun h => (Bool.and_eq_true_iff.mp h).2) id

end

end Asks

namespace Lowering

open SsaCompiler.Core (ExprTy Var Step)
open Ssa (ValueRef BlockRef FuncRef)

variable {κ : Scene} {V U : List Nat} {P : List BlockRef} {Γ Δ : List Item} {α β : Type}
  {x y : ValueRef}

/-- A computation of a value that relies on nothing. -/
abbrev Scene.Evaluates (κ : Scene) (V : List Nat) (x : Lowering ValueRef) : Prop :=
  ∀ Γ, κ.Gains V Γ x

open Scene

/-! ## Texts and functions -/

theorem mem_of_lookup {ι β : Type} [BEq ι] [LawfulBEq ι] {k : ι} {b : β} {l : List (ι × β)}
    (h : l.lookup k = some b) : (k, b) ∈ l := by
  induction l with
  | nil => exact nomatch h
  | cons p l ih =>
    rw [lookup_cons] at h
    split at h
    next heq =>
      cases h
      rw [eq_of_beq heq]
      exact mem_cons_self ..
    next => exact mem_cons_of_mem _ (ih h)

instance gains_text {w : String} : κ.Gains V Γ (text w) := by
  refine .mk (fun P U => ?_) fun _ env s a t hs hΓ hr => ?_
  · refine Triple.get.bind fun r => ?_
    dsimp only
    split
    · exact .pure fun _ hs => hs.2
    · refine Triple.bind (Triple.before (gains_globalString (Γ := []) P U).leads
        fun _ hs => hs.2) fun v => ?_
      exact (Triple.modify fun s hs => hs.withTexts _).bind fun _ => .pure fun _ hs => hs
  · simp only [text, runs_bind, runs_get] at hr
    obtain ⟨_, _, ⟨rfl, rfl⟩, hr⟩ := hr
    split at hr
    next v hv =>
      obtain ⟨rfl, rfl⟩ := runs_pure.mp hr
      exact ⟨hs, .refl _, holds_singleton (hs.texts _ (mem_of_lookup hv))⟩
    next =>
      simp only [runs_bind, runs_modify, runs_pure] at hr
      obtain ⟨v, u, hv, _, _, rfl, rfl, rfl⟩ := hr
      obtain ⟨hu, hk, hg⟩ := ensures_globalString hs hΓ hv
      refine ⟨⟨hu.functions, hu.lowered, hu.current, fun p hp => ?_, hu.storage, hu.bodies⟩, hk, hg⟩
      rcases mem_append.mp hp with hp | hp
      · exact hu.texts p hp
      · rw [mem_singleton.mp hp]
        exact hg _ (mem_singleton_self _)

instance yields_printf : κ.Yields V Γ printf fun f => [.func f] :=
  yields_declareFunction (by decide) ⟨by decide, fun h => absurd h (by decide)⟩

instance yields_exit : κ.Yields V Γ exit fun f => [.func f] :=
  yields_declareFunction (by decide) ⟨by decide, fun h => absurd h (by decide)⟩

instance yields_declareHeap : κ.Yields V Γ declareHeap fun _ => [] := by
  refine .of fun P U => .bind (yields_declareFunction (by decide) ⟨by decide, fun _ => rfl⟩ P U).toPasses
    fun _ => ?_
  exact .bind (yields_declareFunction (by decide) ⟨by decide, fun h => absurd h (by decide)⟩ P U).toPasses
    fun _ => inferInstance

/-- Whether a method has a function. -/
def Found (F : List MethodFunc) (f : MethodDef) : Prop :=
  ∃ d ∈ F, d.method.same f

/-- The function of a method may be made here. Its blocks are not accounted for. -/
theorem steady_function {owner : Owner} {key : String} {f : MethodDef} :
    κ.Steady V (function owner key f) := by
  intro P U
  have hadd : ∀ (r : FuncRef) (isDefined : Bool), κ.Leads (κ.At true P V U)
      (do modify fun s => { s with functions := s.functions ++ [⟨f, r, isDefined⟩] }; return r)
      fun _ => κ.At true P V U := fun r isDefined =>
    (Triple.modify fun s hs => hs.addFunction _).bind fun _ => .pure fun _ hs => hs
  refine Triple.get.bind fun r => ?_
  split
  · exact .pure fun _ hs => hs.2
  · refine Triple.bind (Triple.read fun _ _ _ hs => hs.2) fun env => ?_
    refine Triple.bind (Steady.lift (fun env => signature_standard env _ _) P U) fun sig => ?_
    split
    · exact (steady_declareFunction _ _ P U).bind fun r => hadd r _
    split
    · exact (leads_defineFunction.after fun _ _ hs => hs.1).bind fun r => hadd r _
    · exact (steady_declareFunction _ _ P U).bind fun r => hadd r _

instance yields_function {owner : Owner} {key : String} {f : MethodDef}
    [hf : Known (κ.whole → Found κ.functions f)] :
    κ.Yields V Γ (function owner key f) fun r => [.body r] := by
  refine .mk steady_function fun hw env s r t hs hΓ hr => ?_
  simp only [function, runs_bind, runs_get] at hr
  obtain ⟨_, _, ⟨rfl, rfl⟩, hr⟩ := hr
  split at hr
  next d hd =>
    obtain ⟨rfl, rfl⟩ := runs_pure.mp hr
    rw [hs.functions] at hd
    exact ⟨hs, .refl _, holds_singleton (hs.bodies d (mem_of_find?_eq_some hd))⟩
  next hnone =>
    rw [hs.functions, List.find?_eq_none] at hnone
    obtain ⟨d, hd, hsame⟩ := hf.holds hw
    exact absurd hsame (hnone d hd)

/-! ## Variables -/

section

variable {v : Var} {n : Nat}

instance {s : Storage} : Tells (itemsOf s) (.value s.addr) :=
  inferInstanceAs (Tells (.value s.addr :: s.length.toList.map .value) (.value s.addr))

instance {s : Storage} : TellsAll (itemsOf s) (s.length.toList.map .value) :=
  ⟨fun h i hi => h i (mem_cons_of_mem _ hi)⟩

/-- A variable that is accounted for has storage. -/
theorem leads_noStorage {s : LoweringState} {d : Defect} (hd : d.isFlow = false)
    (hn : κ.strict → n ∈ V) (hnone : s.storage.lookup n = none) :
    κ.Leads (fun t => s = t ∧ κ.At true P V U t) (fail d : Lowering α) fun _ => κ.At true P V U := by
  rintro env _ _ ⟨rfl, hs⟩
  refine leads_fail ⟨hd, fun hstrict => ?_⟩ (fun _ hs => hs.intact) trivial hs
  have := hs.visible hstrict _ (hn hstrict)
  rw [hnone] at this
  cases this

instance yields_storageOf [hv : Known (κ.strict → v.id ∈ V)] :
    κ.Yields V Γ (storageOf v) itemsOf := by
  refine .mk (fun P U => Triple.get.bind fun r => ?_) fun _ env s a t hs hΓ hr => ?_
  · split
    · exact .pure fun _ hs => hs.2
    next hnone => exact leads_noStorage rfl hv.holds hnone
  · simp only [storageOf, runs_bind, runs_get] at hr
    obtain ⟨_, _, ⟨rfl, rfl⟩, hr⟩ := hr
    split at hr
    next d hd =>
      obtain ⟨rfl, rfl⟩ := runs_pure.mp hr
      exact ⟨hs, .refl _, hs.storage _ (mem_of_lookup hd)⟩
    next => exact absurd hr runs_fail

instance gains_readStorage {d : Storage} [Tells Γ (.value d.addr)] :
    κ.Gains V Γ (readStorage d) :=
  .of fun P U => by unfold readStorage; infer_instance

instance gains_readVar [Known (κ.strict → v.id ∈ V)] : κ.Gains V Γ (readVar v) :=
  .of fun P U => by unfold readVar; infer_instance

theorem gains_readNumber (hn : κ.strict → n ∈ V) : κ.Gains V Γ (readNumber n) := by
  have hread : ∀ d, κ.Gains V (itemsOf d) (readStorage d) := fun d => inferInstance
  refine .mk (fun P U => Triple.get.bind fun r => ?_) fun hw env s a t hs hΓ hr => ?_
  · split
    · exact Triple.before (hread _ P U).leads fun _ hs => hs.2
    next hnone => exact leads_noStorage rfl hn hnone
  · simp only [readNumber, runs_bind, runs_get] at hr
    obtain ⟨_, _, ⟨rfl, rfl⟩, hr⟩ := hr
    split at hr
    next d hd => exact (hread d).ensures hw hs (hs.storage _ (mem_of_lookup hd)) hr
    next => exact absurd hr runs_fail

theorem gains_readSize (hv : κ.strict → ∀ d, v.dim = some d → d ∈ V) :
    κ.Gains V Γ (readSize v) := by
  unfold readSize
  split
  next d hd => exact gains_readNumber fun hs => hv hs d hd
  next => exact .of fun _ _ => .fail ⟨rfl, fun _ => rfl⟩

instance gains_loadPath (path : List Nat) [Tells Γ (.value x)] :
    κ.Gains V Γ (loadPath x path) := by
  refine .of fun P U => ?_
  induction path generalizing Γ x with
  | nil => exact inferInstanceAs (κ.Passes _ Γ (pure x) _ _)
  | cons i path ih =>
    unfold loadPath
    infer_instance

end

/-! ## Conversions -/

instance gains_zero {t : Ssa.Ty} [Tells Γ (.type t)] : κ.Gains V Γ (zero t) := by
  have hfloat : Known (Ssa.Ty.float.isInt = false) := ⟨rfl⟩
  have hdouble : Known (Ssa.Ty.double.isInt = false) := ⟨rfl⟩
  unfold zero
  split <;> infer_instance

instance gains_castPrimitive {p q : Primitive} [Tells Γ (.value x)] :
    κ.Gains V Γ (castPrimitive x p q) := by
  refine .of fun P U => ?_
  unfold castPrimitive
  split
  · infer_instance
  split
  · split
    next hp =>
      have hint : Known (p.machineType.isInt = false) := ⟨Primitive.isInt_machineType hp⟩
      infer_instance
    next => infer_instance
  split
  next hpq =>
    rw [Bool.and_eq_true] at hpq
    refine (gains_convert ?_ (fun _ => Primitive.isInt_machineType hpq.2) P U).toPasses
    split <;> simp
  split
  · exact (gains_convert (o := .fpToSi) (by simp) (fun h => absurd h Bool.false_ne_true) P U).toPasses
  split
  next hq =>
    have hint := Primitive.isInt_machineType hq
    have hto : ∀ {Δ : List Item} {y : ValueRef} [Tells Δ (.value y)],
        κ.Gains V Δ (build (.convert .siToFp y q.machineType)) :=
      gains_convert (by simp) fun _ => hint
    infer_instance
  · infer_instance

instance gains_coerce {source target : ExprTy} [Tells Γ (.value x)] :
    κ.Gains V Γ (coerce x source target) := by
  refine .of fun P U => ?_
  unfold coerce
  split
  · infer_instance
  split <;> infer_instance

/-! ## Helper functions -/

/-- A helper has two parameters, and its name is none of those of the target. -/
theorem yields_helper {name : String} {sig : Ssa.Ty} {params : List String}
    {body : ValueRef → ValueRef → Lowering Unit} (hsig : sig.Standard)
    (hlen : sig.params.length = 2) (hname : Target.external? name = none)
    (hbody : ∀ x y P U, κ.Passes (κ.At true P V U) [.value x, .value y] (body x y)
      (fun _ => κ.At false P V U) fun _ => []) :
    κ.Yields V Γ (helper name sig params body) fun f => [.body f] := by
  have hdefine : κ.whole → Ensures κ.functions Γ (defineHelper name sig params body)
      fun f => [.body f] := by
    intro hw
    refine (ensures_defineFunction hsig hname).bind fun f => ?_
    rw [hlen]
    refine (ensures_module (f := f) (n := 2)).bind fun m => ?_
    refine (Ensures.aside (g := fun _ => []) ?_).bind fun _ => .pure
    refine ensures_setInsertPoint.bind fun _ => ?_
    exact ((hbody _ _ [] []).ensures hw).weaken (by simp [range_succ])
      fun _ => nil_subset _
  refine .mk ?_ fun hw env s f t hs hΓ hr => ?_
  · refine steady_module.bind fun m => ?_
    split
    · exact .pure _
    · exact steady_defineHelper fun x y P U => (hbody x y P U).leads
  · simp only [helper, runs_bind, runs_module] at hr
    obtain ⟨_, _, ⟨rfl, rfl⟩, hr⟩ := hr
    split at hr
    next g hg =>
      obtain ⟨rfl, rfl⟩ := runs_pure.mp hr
      obtain ⟨hfind, hdecl⟩ := Option.filter_eq_some_iff.mp hg
      refine ⟨hs, .refl _, holds_singleton ⟨?_, by simpa using hdecl⟩⟩
      exact (Array.findIdx?_eq_some_iff_getElem.mp hfind).1
    next => exact hdefine hw hs hΓ hr

instance : Known (Ssa.Op.isVerified .or) := ⟨rfl⟩
instance : Known (Ssa.Op.isVerified .mul) := ⟨rfl⟩
instance : Known (Ssa.Op.isVerified .add) := ⟨rfl⟩
instance : Known (Ssa.Op.isVerified .sub) := ⟨rfl⟩

instance yields_checkIndex : κ.Yields V Γ checkIndex fun f => [.body f] := by
  refine yields_helper (by decide) rfl (by decide) fun index length P U => ?_
  repeat refine .next fun _ => ?_
  infer_instance

instance yields_integerPower : κ.Yields V Γ integerPower fun f => [.body f] := by
  refine yields_helper (by decide) rfl (by decide) fun base exponent P U => ?_
  repeat refine .next fun _ => ?_
  infer_instance

/-! ## Objects -/

/-- An operand whose value can be computed. -/
abbrev Operand.Fine (κ : Scene) (V : List Nat) (o : Operand) : Prop :=
  κ.Evaluates V o.value

/-- Operands whose values can be computed. -/
class Fine (κ : Scene) (V : List Nat) (os : List Operand) : Prop where
  fine : ∀ o ∈ os, o.Fine κ V

/-- Default values that can be computed. They use no variables. -/
class Defaults.Fine (κ : Scene) (dv : Defaults) : Prop where
  fine : ∀ c i o, dv c i = some o → ∀ V, o.Fine κ V

variable {o p : Operand} {os : List Operand} {dv : Defaults}

theorem Fine.cons (h : Fine κ V (o :: os)) : o.Fine κ V ∧ Fine κ V os :=
  ⟨h.fine o (mem_cons_self ..), ⟨fun p hp => h.fine p (mem_cons_of_mem _ hp)⟩⟩

instance gains_as [o.Fine κ V] {target : ExprTy} : κ.Gains V Γ (o.as target) :=
  .of fun P U => by unfold Operand.as; infer_instance

instance gains_newCell {s : Scalar} {init : Option Operand} [h : Fine κ V init.toList] :
    κ.Gains V Γ (newCell s init) := by
  refine .of fun P U => ?_
  unfold newCell
  cases init with
  | some o =>
    have ho := h.fine o (mem_singleton_self o)
    infer_instance
  | none => infer_instance

instance gains_fieldInit {c : ClassAt} {f : FieldDef} {arg : Option Operand} {type : Scalar}
    [hdv : dv.Fine κ] [h : Fine κ V arg.toList] : κ.Gains V Γ (fieldInit dv c f arg type) := by
  refine .of fun P U => ?_
  unfold fieldInit
  dsimp only
  split
  next o ho =>
    have hfine : o.Fine κ V := by
      cases arg with
      | some a => exact Option.some.inj ho ▸ h.fine a (mem_singleton_self a)
      | none =>
        split at ho
        · exact hdv.fine _ _ o ho V
        · exact nomatch ho
    infer_instance
  next => infer_instance

instance yields_fillFields {c : ClassAt} {fs : List FieldDef} [dv.Fine κ] [h : Fine κ V os]
    [Tells Γ (.value x)] : κ.Yields V Γ (fillFields dv c x fs os) fun _ => [] := by
  refine .of fun P U => ?_
  induction fs generalizing os Γ with
  | nil => exact inferInstanceAs (κ.Passes _ Γ (pure ()) _ _)
  | cons f fs ih =>
    have hhead : Fine κ V os.head?.toList := ⟨fun o ho => h.fine o (by
      cases os with
      | nil => exact absurd ho not_mem_nil
      | cons p os => exact mem_singleton.mp ho ▸ mem_cons_self ..)⟩
    have hrest : ∀ {Γ} [Tells Γ (.value x)], κ.Passes (κ.At true P V U) Γ
        (fillFields dv c x fs os.tail) (fun _ => κ.At true P V U) fun _ => [] :=
      ih (h := ⟨fun o ho => h.fine o (mem_of_mem_tail ho)⟩)
    unfold fillFields
    infer_instance

instance gains_newObject {c : ClassAt} [dv.Fine κ] [Fine κ V os] :
    κ.Gains V Γ (newObject dv c os) :=
  .of fun P U => by unfold newObject; infer_instance

instance gains_malloc {s : Scalar} : κ.Gains V Γ (malloc s) := by
  refine .of fun P U => ?_
  refine .next fun _ => .bind (yields_lift (fun env => ?_) P U).toPasses fun _ => inferInstance
  split <;> infer_instance

instance gains_go {path : List Step} [Tells Γ (.value x)] :
    κ.Gains V Γ (fieldAddress.go x path) := by
  refine .of fun P U => ?_
  induction path generalizing Γ x with
  | nil => exact inferInstanceAs (κ.Passes _ Γ (pure x) _ _)
  | cons f fs ih =>
    cases fs with
    | nil => exact inferInstanceAs (κ.Passes _ Γ (build (.fieldPtr x f.index)) _ _)
    | cons g fs =>
      unfold fieldAddress.go
      infer_instance

instance gains_fieldAddress {v : Var} {path : List Step} [Known (κ.strict → v.id ∈ V)] :
    κ.Gains V Γ (fieldAddress v path) :=
  .of fun P U => by unfold fieldAddress; infer_instance

/-! ## Arrays -/

instance yields_newArray {s : Scalar} [o.Fine κ V] :
    κ.Yields V Γ (newArray s o) fun r => .value r.1 :: r.2.toList.map .value :=
  .of fun P U => by unfold newArray; infer_instance

instance yields_fillElements {elem : Scalar} {i : Nat} [h : Fine κ V os] [Tells Γ (.value x)] :
    κ.Yields V Γ (fillElements x elem i os) fun _ => [] := by
  refine .of fun P U => ?_
  induction os generalizing i Γ h with
  | nil => exact inferInstanceAs (κ.Passes _ Γ (pure ()) _ _)
  | cons o os ih =>
    obtain ⟨ho, hos⟩ := h.cons
    unfold fillElements
    infer_instance

instance yields_fillMembers {i : Nat} [h : Fine κ V os] [Tells Γ (.value x)] :
    κ.Yields V Γ (fillMembers x i os) fun _ => [] := by
  refine .of fun P U => ?_
  induction os generalizing i Γ h with
  | nil => exact inferInstanceAs (κ.Passes _ Γ (pure ()) _ _)
  | cons o os ih =>
    obtain ⟨ho, hos⟩ := h.cons
    unfold fillMembers
    infer_instance

/-! ## Operators -/

section

variable {v w : Lowering ValueRef} [κ.Evaluates V v] [κ.Evaluates V w]

instance yields_promoted {p q : Primitive} :
    κ.Yields V Γ (promoted p q v w) fun r => [.value r.1, .value r.2] :=
  .of fun P U => by unfold promoted; infer_instance

instance gains_compare {op : BinaryOp} {p q : Primitive} : κ.Gains V Γ (compare op p q v w) :=
  .of fun P U => by unfold compare; exact .next fun ⟨a, b⟩ => by dsimp only; infer_instance

instance gains_arith {op : BinaryOp} {p q : Primitive} : κ.Gains V Γ (arith op p q v w) := by
  refine .of fun P U => ?_
  refine .next fun ⟨a, b⟩ => ?_
  dsimp only
  split
  next onInts onFloats hops =>
    have hop : Known ((if (p.promote q).isFloat then onFloats else onInts).isVerified) := by
      cases op <;> simp only [arithOps?, Option.some.injEq, Prod.mk.injEq, reduceCtorEq] at hops
      all_goals
        obtain ⟨rfl, rfl⟩ := hops
        exact ⟨by split <;> rfl⟩
    infer_instance
  next =>
    split
    · infer_instance
    · exact .fail ⟨rfl, fun _ => rfl⟩

/-- The second operand has a block of its own, and the block behind it waits meanwhile. -/
instance gains_logical {op : BinaryOp} : κ.Gains V Γ (logical op v w) := by
  refine .of fun P U => ?_
  repeat refine .next fun _ => ?_
  split <;>
    repeat refine .next fun _ => ?_
  all_goals infer_instance

end

instance gains_same {op : BinaryOp} [o.Fine κ V] [p.Fine κ V] : κ.Gains V Γ (same op o p) :=
  .of fun P U => by unfold same; infer_instance

/-- Each of the two values has a block of its own. -/
instance gains_selection {t : ExprTy} {c : Lowering ValueRef} [κ.Evaluates V c] [o.Fine κ V]
    [p.Fine κ V] : κ.Gains V Γ (selection t c o p) := by
  refine .of fun P U => ?_
  repeat refine .next fun _ => ?_
  infer_instance

instance gains_step {v : Var} {up after : Bool} [Known (κ.strict → v.id ∈ V)] :
    κ.Gains V Γ (step v up after) := by
  refine .of fun P U => ?_
  repeat refine .next fun _ => ?_
  infer_instance

/-! ## Calls -/

instance yields_arguments {ts : List Ty} [h : Fine κ V os] :
    κ.Yields V Γ (arguments os ts) fun xs => xs.map .value := by
  induction os generalizing ts Γ h with
  | nil => exact .of fun P U => inferInstanceAs (κ.Passes _ Γ (pure []) _ _)
  | cons o os ih =>
    obtain ⟨ho, hos⟩ := h.cons
    refine .of fun P U => ?_
    cases ts with
    | nil => exact inferInstanceAs (κ.Passes _ Γ (pure []) _ _)
    | cons t ts =>
      unfold arguments
      infer_instance

instance yields_printed [o.Fine κ V] : κ.Yields V Γ (printed o) fun r => [.value r.2] := by
  have hext : ∀ {Δ : List Item} {y : ValueRef} [Tells Δ (.value y)],
      κ.Gains V Δ (build (.convert .fpExt y .double)) :=
    gains_convert (by simp) fun _ => rfl
  refine .of fun P U => ?_
  refine .next fun x => ?_
  split <;> infer_instance

instance yields_printedAll [h : Fine κ V os] :
    κ.Yields V Γ (printedAll os) fun rs => rs.map fun r => .value r.2 := by
  induction os generalizing Γ h with
  | nil => exact .of fun P U => inferInstanceAs (κ.Passes _ Γ (pure []) _ _)
  | cons o os ih =>
    obtain ⟨ho, hos⟩ := h.cons
    exact .of fun P U => by unfold printedAll; infer_instance

instance yields_println [Fine κ V os] : κ.Yields V Γ (println os) fun _ => [] := by
  refine .of fun P U => ?_
  refine .next fun rs => ?_
  have hrs : ∀ {Δ : List Item} [TellsAll Δ (rs.map fun r => .value r.2)],
      TellsAll Δ ((rs.map Prod.snd).map .value) := fun {_} h => by
    rw [map_map]
    exact h
  infer_instance

instance gains_loadCell {t : ExprTy} [Tells Γ (.value x)] : κ.Gains V Γ (loadCell t x) :=
  .of fun P U => by unfold loadCell; infer_instance

end Lowering

/-! ## Expressions -/

/-- What may be demanded of a program: that its variables are in scope if `strict` is true, and that its
methods are found if `whole` is. -/
structure Core.Demands where
  strict : Prop
  whole : Prop
  found : MethodDef → Prop

namespace Core.Expr

mutual

/-- Whether an expression uses variables of `V` only, all methods that it calls are found, and nothing
in it is a floating-point number by name only, as far as this is demanded. -/
def Fit (a : Demands) (V : List Nat) : Expr → Prop
  | .text _ | .null | .int .. | .newZero _ | .malloc _ | .sizeof _ => True
  | .float p _ => a.whole → p.isFloat
  | .var v | .field v _ | .step v .. | .refTo v _ | .deref v _ => a.strict → v.id ∈ V
  | .call f args => (a.whole → a.found f.method) ∧ FitAll a V args
  | .println args | .newObject _ _ args | .tuple args | .arrayLiteral _ args => FitAll a V args
  | .newCell _ x | .cast _ _ x | .not x | .arrayAlloc _ x => Fit a V x
  | .neg p x => (a.whole → p.isFloat = false) ∧ Fit a V x
  | .logical _ x y | .same _ x y | .compare _ _ _ x y | .arith _ _ _ x y | .index x y _ _ =>
    Fit a V x ∧ Fit a V y
  | .selection _ c x y => Fit a V c ∧ Fit a V x ∧ Fit a V y

/-- Whether all expressions are fit. -/
def FitAll (a : Demands) (V : List Nat) : List Expr → Prop
  | [] => True
  | x :: xs => Fit a V x ∧ FitAll a V xs

end

variable {a : Demands} {V W : List Nat}

mutual

theorem Fit.mono (hVW : V ⊆ W) : ∀ x : Expr, x.Fit a V → x.Fit a W
  | .text _, _ | .null, _ | .int .., _ | .newZero _, _ | .malloc _, _ | .sizeof _, _ => by
    trivial
  | .float .., h => by
    exact h
  | .var v, h | .field v _, h | .step v .., h | .refTo v _, h | .deref v _, h => by
    exact fun hs => hVW (h hs)
  | .call _ args, h => by
    exact ⟨h.1, FitAll.mono hVW args h.2⟩
  | .println args, h | .newObject _ _ args, h | .tuple args, h | .arrayLiteral _ args, h => by
    exact FitAll.mono hVW args h
  | .newCell _ x, h | .cast _ _ x, h | .not x, h | .arrayAlloc _ x, h => by
    exact Fit.mono hVW x h
  | .neg _ x, h => by
    exact ⟨h.1, Fit.mono hVW x h.2⟩
  | .logical _ x y, h | .same _ x y, h | .compare _ _ _ x y, h | .arith _ _ _ x y, h
  | .index x y _ _, h => by
    exact ⟨Fit.mono hVW x h.1, Fit.mono hVW y h.2⟩
  | .selection _ c x y, h => by
    exact ⟨Fit.mono hVW c h.1, Fit.mono hVW x h.2.1, Fit.mono hVW y h.2.2⟩

theorem FitAll.mono (hVW : V ⊆ W) : ∀ xs : List Expr, FitAll a V xs → FitAll a W xs
  | [], _ => by
    trivial
  | x :: xs, h => by
    exact ⟨Fit.mono hVW x h.1, FitAll.mono hVW xs h.2⟩

end

end Core.Expr

namespace Lowering

open Ssa (ValueRef)
open Scene

variable {κ : Scene} {V : List Nat} {Γ : List Item} {dv : Defaults} {x : Core.Expr}

/-- What is demanded where variables or operands are accounted for. -/
abbrev Scene.demands (κ : Scene) : Core.Demands :=
  ⟨κ.strict, κ.whole, Found κ.functions⟩

/-- What is asked if variables or operands are accounted for. -/
abbrev Scene.Asks (κ : Scene) (p : Prop) : Prop :=
  SsaCompiler.Asks κ.strict κ.whole p p

/-- What is asked of an expression. -/
abbrev Scene.AsksExpr (κ : Scene) (V : List Nat) (x : Core.Expr) : Prop :=
  κ.Asks (x.Fit κ.demands V)

instance yields_arrayLength [hx : Known (κ.AsksExpr V x)] :
    κ.Yields V Γ (arrayLength x) fun n => n.toList.map .value := by
  refine .of fun P U => ?_
  unfold arrayLength
  split
  · infer_instance
  · split
    next v _ =>
      have hv : Known (κ.strict → v.id ∈ V) := ⟨fun hs => hx.holds.first hs hs⟩
      infer_instance
    next => infer_instance

instance gains_elementAddress {checked : Bool} {array index : Lowering ValueRef}
    [Known (κ.AsksExpr V x)] [κ.Evaluates V array] [κ.Evaluates V index] :
    κ.Gains V Γ (elementAddress x checked array index) := by
  refine .of fun P U => ?_
  repeat refine .next fun _ => ?_
  split
  · refine .next fun length => ?_
    split
    · repeat refine .next fun _ => ?_
      infer_instance
    · infer_instance
  · infer_instance

mutual

theorem evaluates_expr [dv.Fine κ] : ∀ x : Core.Expr, κ.AsksExpr V x → κ.Evaluates V (expr dv x)
  | .text _, _, _ | .null, _, _ | .int _ _, _, _ | .malloc _, _, _ => by
    exact .of fun P U => by unfold expr; infer_instance
  | .newZero s, _, _ => by
    have hnone : Fine κ V (none : Option Operand).toList := ⟨forall_mem_nil _⟩
    exact .of fun P U => by unfold expr; infer_instance
  | .float p bits, h, Γ => by
    refine .of fun P U => ⟨steady_making (fun m => (m.emits_addConst _).quiet) P U,
      fun hw => ?_⟩
    have hint : Known (p.machineType.isInt = false) := ⟨Primitive.isInt_machineType (h.second hw hw)⟩
    exact (gains_constFloat (κ := κ) (V := V) P U).ensures hw
  | .var v, h, _ | .field v _, h, _ | .step v _ _ _, h, _ | .refTo v _, h, _
  | .deref v _, h, _ => by
    have hv : Known (κ.strict → v.id ∈ V) := ⟨fun hs => h.first hs hs⟩
    exact .of fun P U => by unfold expr; infer_instance
  | .call f args, h, _ => by
    have hf : Known (κ.whole → Found κ.functions f.method) := ⟨fun hw => (h.second hw).1 hw⟩
    have hargs := fine_operands args h.right
    exact .of fun P U => by unfold expr; infer_instance
  | .println args, h, _ => by
    have hargs := fine_operands args h
    exact .of fun P U => .next fun _ => .fail ⟨rfl, fun _ => rfl⟩
  | .newObject _ _ args, h, _ | .tuple args, h, _ | .arrayLiteral _ args, h, _ => by
    have hargs := fine_operands args h
    exact .of fun P U => by unfold expr; infer_instance
  | .sizeof t, _, Γ => by
    refine .of fun P U => .bind (g := fun _ => []) ⟨Steady.lift (fun env =>
      env.sizeType_standard _) P U, fun _ => ensures_lift fun _ _ _ _ => holds_nil⟩ fun u => ?_
    infer_instance
  | .newCell _ x, h, _ => by
    have hx := evaluates_expr x h
    have hone : Fine κ V (some ⟨x.type, expr dv x⟩ : Option Operand).toList :=
      ⟨fun o ho => mem_singleton.mp ho ▸ hx⟩
    exact .of fun P U => by unfold expr; infer_instance
  | .cast _ _ x, h, _ | .arrayAlloc _ x, h, _ => by
    have hx := evaluates_expr x h
    exact .of fun P U => by unfold expr; infer_instance
  | .not x, h, Γ => by
    have hx := evaluates_expr x h
    exact .of fun P U => by
      exact .next fun v => (gains_unary (.inr rfl) P U).toPasses
  | .neg p x, h, Γ => by
    have hx := evaluates_expr x h.right
    refine .of fun P U => ?_
    refine .next fun v => ⟨((steady_typeOf v).build_bind fun _ => steady_emit _) P U, fun hw => ?_⟩
    rw [(h.second hw).1 hw]
    exact (gains_unary (κ := κ) (V := V) (.inl rfl) P U).ensures hw
  | .logical _ x y, h, _ | .same _ x y, h, _ | .compare _ _ _ x y, h, _
  | .arith _ _ _ x y, h, _ => by
    have hx := evaluates_expr x h.left
    have hy := evaluates_expr y h.right
    exact .of fun P U => by unfold expr; infer_instance
  | .index x y _ _, h, _ => by
    have hfit : Known (κ.AsksExpr V x) := ⟨h.left⟩
    have hx := evaluates_expr x h.left
    have hy := evaluates_expr y h.right
    exact .of fun P U => by unfold expr; infer_instance
  | .selection _ c x y, h, _ => by
    have hc := evaluates_expr c h.left
    have hx := evaluates_expr x h.right.left
    have hy := evaluates_expr y h.right.right
    exact .of fun P U => by unfold expr; infer_instance

theorem fine_operands [dv.Fine κ] : ∀ xs : List Core.Expr,
    κ.Asks (Core.Expr.FitAll κ.demands V xs) → Fine κ V (operands dv xs)
  | [], _ => ⟨fun o ho => by
    exact absurd ho not_mem_nil⟩
  | x :: xs, h => ⟨fun o ho => by
    rcases mem_cons.mp ho with rfl | ho
    · exact evaluates_expr x h.left
    · exact (fine_operands xs h.right).fine o ho⟩

end

theorem fine_operand [dv.Fine κ] (h : κ.AsksExpr V x) : (operand dv x).Fine κ V :=
  evaluates_expr x h

/-- Output has no value, and so nothing is known of the value of an expression that stands alone. -/
theorem yields_effect [dv.Fine κ] (h : κ.AsksExpr V x) : κ.Yields V Γ (effect dv x) fun _ => [] := by
  refine .of fun P U => ?_
  unfold effect
  split
  next args =>
    have hargs : Fine κ V (operands dv args) := fine_operands args h
    infer_instance
  next =>
    have hx : κ.Evaluates V (expr dv x) := evaluates_expr x h
    infer_instance

theorem gains_address [dv.Fine κ] (h : κ.AsksExpr V x) : κ.Gains V Γ (address dv x) := by
  unfold address
  split
  next =>
    have hnone : Fine κ V (none : Option Operand).toList := ⟨forall_mem_nil _⟩
    infer_instance
  next s y =>
    have hone : Fine κ V (some (operand dv y)).toList :=
      ⟨fun o ho => mem_singleton.mp ho ▸ fine_operand h⟩
    infer_instance
  next s c args =>
    have hargs : Fine κ V (operands dv args) := fine_operands args h
    infer_instance
  next => infer_instance
  next => exact .of fun _ _ => .fail ⟨rfl, fun _ => rfl⟩

/-- Default values use no variables, so they can be computed however deep they nest. -/
theorem fine_defaultsWithin {values : List Core.DefaultValue}
    (h : ∀ d ∈ values, κ.AsksExpr [] d.value) : ∀ depth, (defaultsWithin values depth).Fine κ
  | 0 => ⟨fun c i o ho V => by
    obtain ⟨d, -, rfl⟩ := Option.map_eq_some_iff.mp ho
    exact fun Γ => .of fun _ _ => .fail ⟨rfl, fun _ => rfl⟩⟩
  | depth + 1 => ⟨fun c i o ho V => by
    obtain ⟨d, hd, rfl⟩ := Option.map_eq_some_iff.mp ho
    have hdepth := fine_defaultsWithin h depth
    have hmono := Core.Expr.Fit.mono (a := κ.demands) (nil_subset V) d.value
    exact fine_operand ((h d (mem_of_find?_eq_some hd)).mono hmono hmono)⟩

end Lowering

end SsaCompiler
