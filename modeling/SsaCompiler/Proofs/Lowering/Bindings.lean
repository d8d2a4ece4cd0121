import SsaCompiler.Proofs.Lowering.Operands

/-!
# Binding variables and returning values

A variable is bound where it is declared, with or without an initial value, and the parameters of a
method are bound when its body starts. To bind a variable gives it storage, and changes nothing else
that is accounted for. A return ends the current block.
-/

namespace SsaCompiler

/-- The length of an array is held by a variable of `V`, if by any. -/
def Core.Var.SizeIn (V : List Nat) (v : Var) : Prop :=
  ∀ d, v.dim = some d → d ∈ V

namespace Lowering

open SsaCompiler.Core (Var)
open Ssa (ValueRef BlockRef)
open Scene

variable {κ : Scene} {V U : List Nat} {P : List BlockRef} {Γ : List Item} {dv : Defaults}
  {x : Core.Expr} {o : Operand} {p y : ValueRef}

/-! ## Binding variables -/

/-- A step that binds a variable, and leaves all else as it is. -/
abbrev Scene.Binds (κ : Scene) (V : List Nat) (v : Var) (Γ : List Item) (x : Lowering Unit) : Prop :=
  ∀ P U, [Known (κ.strict → v.id ∉ U)] → κ.Does (κ.At true P V U) Γ x
    (fun _ => κ.At true P (v.id :: V) (v.id :: U)) fun _ => []

section

variable {v : Var}

theorem Scene.Binds.of {x : Lowering Unit} (hx : ∀ P U, Known (κ.strict → v.id ∉ U) →
    κ.Passes (κ.At true P V U) Γ x (fun _ => κ.At true P (v.id :: V) (v.id :: U)) fun _ => []) :
    κ.Binds V v Γ x :=
  fun P U hv => { hx P U hv with }

instance binds_bind {d : Storage} [hd : TellsAll Γ (itemsOf d)] : κ.Binds V v Γ (bind v d) := by
  refine .of fun P U hv => ⟨Triple.get.bind fun r => ?_, fun _ env s a t hs hΓ hr => ?_⟩
  · split
    next hsome =>
      rintro env s _ ⟨rfl, hs⟩
      refine Triple.bind (leads_fail (J := fun _ => κ.At true P V U) ⟨rfl, fun hstrict => ?_⟩
        fun _ hs => hs.intact) (fun _ => .modify fun s hs => hs.addStorage v.id d)
        trivial hs
      exact absurd (hs.bound hstrict _ hsome) (hv.holds hstrict)
    next => exact .modify fun s hs => hs.2.addStorage v.id d
  · simp only [bind, runs_bind, runs_get] at hr
    obtain ⟨_, _, ⟨rfl, rfl⟩, hr⟩ := hr
    split at hr
    next => simp only [runs_bind, runs_fail, false_and, exists_false] at hr
    next =>
      obtain rfl := runs_modify.mp hr
      refine ⟨⟨hs.functions, hs.lowered, hs.current, hs.texts, fun p hp => ?_, hs.bodies⟩,
        .refl _, holds_nil⟩
      rcases List.mem_cons.mp hp with rfl | hp
      · exact hd.holds hΓ
      · exact hs.storage p hp

instance {d : Bool} {length : Option ValueRef} [Tells Γ (.value y)]
    [TellsAll Γ (length.toList.map .value)] : TellsAll Γ (itemsOf ⟨y, d, length⟩) :=
  inferInstanceAs (TellsAll Γ (.value y :: length.toList.map .value))

instance binds_bindValue {length : Option ValueRef} [Tells Γ (.value y)]
    [TellsAll Γ (length.toList.map .value)] : κ.Binds V v Γ (bindValue v y length) := by
  refine .of fun P U _ => .next fun env => ?_
  split
  · infer_instance
  · exact .next fun t => .next fun slot => inferInstance

theorem binds_bindDeclared (hv : κ.strict → v.SizeIn V) : κ.Binds V v Γ (bindDeclared v) := by
  have hsize : ∀ Γ, κ.Gains V Γ (readSize v) := fun Γ => gains_readSize hv
  refine .of fun P U _ => ?_
  unfold bindDeclared
  split
  · exact .fail ⟨rfl, fun _ => rfl⟩
  split
  · infer_instance
  · exact .next fun t => .next fun slot => .next fun z => inferInstance

instance binds_bindAlias [o.Fine κ V] [hx : Known (κ.AsksExpr V x)] :
    κ.Binds V v Γ (bindAlias v o x) := by
  refine .of fun P U _ => ?_
  unfold bindAlias
  split
  · infer_instance
  split
  next w =>
    have hw : Known (κ.strict → w.id ∈ V) := ⟨fun hs => hx.holds.first hs hs⟩
    infer_instance
  next =>
    exact (Passes.fail ⟨rfl, fun _ => rfl⟩).bind (J := fun _ => κ.At true P V U)
      (g := fun a => [.value a]) fun p => inferInstance

theorem binds_bindLocal [dv.Fine κ] (h : κ.AsksExpr V x) : κ.Binds V v Γ (bindLocal dv v x) := by
  have hx : (operand dv x).Fine κ V := fine_operand h
  have hfit : Known (κ.AsksExpr V x) := ⟨h⟩
  have haddress : ∀ Γ, κ.Gains V Γ (address dv x) := fun Γ => gains_address h
  refine .of fun P U _ => ?_
  refine .next fun env => ?_
  split
  case h_1 | h_2 =>
    split
    · infer_instance
    · split
      next s size =>
        have hsize : (operand dv size).Fine κ V := fine_operand h
        exact .next fun ⟨q, length⟩ => by dsimp only; infer_instance
      next => infer_instance
  all_goals infer_instance

theorem binds_bindParam {params : List ValueRef} (hv : κ.strict → v.SizeIn V)
    [Tells Γ (.value (params.getD v.index.toNat 0))] : κ.Binds V v Γ (bindParam params v) := by
  refine .of fun P U _ => ?_
  refine .next fun x => ?_
  split
  next d hd =>
    have hn : ∀ Γ, κ.Gains V Γ (readNumber d) := fun Γ => gains_readNumber fun hs => hv hs d hd
    simp only [bind_map_left]
    infer_instance
  next => infer_instance

end

/-! ## Assignments -/

instance yields_assign {v : Var} [Known (κ.strict → v.id ∈ V)] [o.Fine κ V] :
    κ.Yields V Γ (assign v o) fun _ => [] :=
  .of fun P U => by unfold assign; infer_instance

instance yields_release {v : Var} [Known (κ.strict → v.id ∈ V)] :
    κ.Yields V Γ (free v) fun _ => [] :=
  .of fun P U => by unfold free; infer_instance

/-! ## Returns -/

instance yields_fillConverted {i : Nat} {os : List Operand} {ts : List Ty} [h : Fine κ V os]
    [Tells Γ (.value p)] : κ.Yields V Γ (fillConverted p i os ts) fun _ => [] := by
  refine .of fun P U => ?_
  induction os generalizing i ts Γ h with
  | nil => exact inferInstanceAs (κ.Passes _ Γ (pure ()) _ _)
  | cons o os ih =>
    obtain ⟨ho, hos⟩ := h.cons
    cases ts with
    | nil => exact inferInstanceAs (κ.Passes _ Γ (pure ()) _ _)
    | cons t ts =>
      unfold fillConverted
      infer_instance

instance yields_copyMembers {i : Nat} {ts : List Ty} [Tells Γ (.value p)] [Tells Γ (.value y)] :
    κ.Yields V Γ (copyMembers p y i ts) fun _ => [] := by
  refine .of fun P U => ?_
  induction ts generalizing i Γ with
  | nil => exact inferInstanceAs (κ.Passes _ Γ (pure ()) _ _)
  | cons t ts ih =>
    unfold copyMembers
    infer_instance

theorem gains_heapTuple {members : List Ty} [dv.Fine κ] (h : κ.AsksExpr V x) :
    κ.Gains V Γ (heapTuple dv x members) := by
  have hx : κ.Evaluates V (expr dv x) := fine_operand h
  refine .of fun P U => ?_
  repeat refine .next fun _ => ?_
  split
  next xs =>
    have hxs : Fine κ V (operands dv xs) := fine_operands xs h
    infer_instance
  next => infer_instance

theorem passes_retValue {result : Ty} [dv.Fine κ] (h : κ.AsksExpr V x) :
    κ.Passes (κ.At true P V U) Γ (ret dv x result) (fun _ => κ.At false P V U) fun _ => [] := by
  have hx : (operand dv x).Fine κ V := fine_operand h
  have htuple : ∀ members Γ, κ.Gains V Γ (heapTuple dv x members) := fun _ _ => gains_heapTuple h
  unfold ret
  split <;> infer_instance

end Lowering

end SsaCompiler
