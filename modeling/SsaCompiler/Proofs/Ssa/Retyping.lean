import SsaCompiler.Proofs.Ssa.OperandTypes
import SsaCompiler.Proofs.Ssa.RecordedDominators
import SsaCompiler.Ssa.Pass.Pipeline

/-!
# Replacing operands by others of the same type

Most steps of the passes take values out of blocks and replace operands by others of the same type.
`Retyped` is what they have in common, and it is all that matters for the types of a module
(`Retyped.typed`). The removal of dead code and the folding of phi values consist of such steps.
-/

namespace SsaCompiler.Ssa

open List

variable {xs : List (Option ValueRef)}

namespace Module

theorem some_mem_set {i : Nat} {held : ValueRef} (h : some a ∈ xs.set i (some held)) :
    a = held ∨ some a ∈ xs := by
  rcases mem_or_eq_of_mem_set h with h | h
  · exact .inr h
  · exact .inl (Option.some.inj h)

/-- Functions are the same apart from their blocks, and each block leads to the same blocks. -/
structure SameWays (m m' : Module) : Prop where
  func : ∀ f, (m'.func f).Like (m.func f)
  block : ∀ b, (m'.block b).func = (m.block b).func ∧ (m'.block b).kind = (m.block b).kind ∧
    (m'.block b).succs = (m.block b).succs

namespace SameWays

variable {m m' m'' : Module}

theorem refl (m : Module) : SameWays m m :=
  ⟨fun _ => .refl _, fun _ => ⟨rfl, rfl, rfl⟩⟩

variable (h : SameWays m m')

include h

theorem trans (h' : SameWays m' m'') : SameWays m m'' where
  func f := (h'.func f).trans (h.func f)
  block b := ⟨(h'.block b).1.trans (h.block b).1, (h'.block b).2.1.trans (h.block b).2.1,
    (h'.block b).2.2.trans (h.block b).2.2⟩

theorem resultOf_eq : m'.resultOf = m.resultOf :=
  funext fun f => by rw [resultOf, resultOf, (h.func f).sig]

theorem routed (hm : m.Routed) : m'.Routed where
  branch {b} hkind := by
    rw [(h.block b).2.2]
    exact hm.branch ((h.block b).2.1 ▸ hkind)
  succ {b s} hs := by
    rw [(h.block s).1, (h.block b).1]
    exact hm.succ ((h.block b).2.2 ▸ hs)
  entry {f e} he := by
    rw [(h.block e).1]
    exact hm.entry ((h.func f).entry ▸ he)
  allocator {f} hdecl hname := by
    rw [h.resultOf_eq]
    refine hm.allocator ?_ ((h.func f).name ▸ hname)
    rw [Func.isDeclaration, (h.func f).entry] at hdecl
    exact hdecl

end SameWays

/-- Values have been taken out of blocks, and operands replaced by others of the same type. -/
structure Retyped (m m' : Module) : Prop extends SameWays m m' where
  size : m'.values.size = m.values.size
  value : ∀ v, (m'.value v).op = (m.value v).op ∧ m'.typeOf v = m.typeOf v ∧
    (m'.value v).aux = (m.value v).aux
  listed : ∀ b v, v ∈ (m'.block b).values → v ∈ (m.block b).values
  types : ∀ v, (m.value v).op ≠ .phi →
    (m'.value v).args.map (Option.map m.typeOf) = m.argTypes v
  phi : ∀ v t, (m.value v).op = .phi → some t ∈ (m'.value v).args.map (Option.map m.typeOf) →
    some t ∈ m.argTypes v ∨ t = m.typeOf v
  arg : ∀ v a, some a ∈ (m'.value v).args → some a ∈ (m.value v).args ∨ m.IsOperand a
  controls : ∀ b, (m'.block b).controls.map (Option.map m.typeOf) =
    (m.block b).controls.map (Option.map m.typeOf)
  control : ∀ b a, some a ∈ (m'.block b).controls → some a ∈ (m.block b).controls ∨ m.IsOperand a

namespace Retyped

variable {m m' m'' : Module} {v a : ValueRef} {f : FuncRef}

theorem typeOf_eq (h : Retyped m m') : m'.typeOf = m.typeOf :=
  funext fun v => (h.value v).2.1

theorem isPrintCount_iff (h : Retyped m m') : m'.IsPrintCount v ↔ m.IsPrintCount v := by
  simp only [IsPrintCount, Func.isDeclaration, (h.value v).1, (h.value v).2.2, (h.func _).name,
    (h.func _).entry]

theorem isOperand_iff (h : Retyped m m') : m'.IsOperand a ↔ m.IsOperand a := by
  rw [IsOperand, IsOperand, h.size, h.isPrintCount_iff]

theorem of_sameArgs (hways : SameWays m m') (hsize : m'.values.size = m.values.size)
    (hvalue : ∀ v, (m'.value v).Like (m.value v))
    (hcontrols : ∀ b, (m'.block b).controls = (m.block b).controls)
    (hlisted : ∀ b v, v ∈ (m'.block b).values → v ∈ (m.block b).values) : Retyped m m' := by
  refine ⟨hways, hsize, fun v => ⟨(hvalue v).op, (hvalue v).type, (hvalue v).aux⟩, hlisted,
    fun v _ => ?_, fun v t _ ht => ?_, fun v a ha => ?_, fun b => ?_, fun b a ha => ?_⟩
  · rw [(hvalue v).args, argTypes]
  · rw [(hvalue v).args] at ht
    exact .inl ht
  · exact .inl ((hvalue v).args ▸ ha)
  · rw [hcontrols]
  · exact .inl (hcontrols b ▸ ha)

theorem refl (m : Module) : Retyped m m :=
  of_sameArgs (.refl m) rfl (fun _ => .refl _) (fun _ => rfl) fun _ _ hv => hv

theorem trans (h : Retyped m m') (h' : Retyped m' m'') : Retyped m m'' where
  toSameWays := h.toSameWays.trans h'.toSameWays
  size := h'.size.trans h.size
  value v := ⟨(h'.value v).1.trans (h.value v).1, (h'.value v).2.1.trans (h.value v).2.1,
    (h'.value v).2.2.trans (h.value v).2.2⟩
  listed b v hv := h.listed b v (h'.listed b v hv)
  types v hop := by
    have htypes := h'.types v (by rwa [(h.value v).1])
    rw [argTypes, h.typeOf_eq] at htypes
    exact htypes.trans (h.types v hop)
  phi v t hop ht := by
    rw [← h.typeOf_eq] at ht
    rcases h'.phi v t ((h.value v).1.trans hop) ht with ht | ht
    · rw [argTypes, h.typeOf_eq] at ht
      exact h.phi v t hop ht
    · rw [h.typeOf_eq] at ht
      exact .inr ht
  arg v a ha := by
    rcases h'.arg v a ha with ha | ha
    · exact h.arg v a ha
    · exact .inr (h.isOperand_iff.mp ha)
  controls b := by
    have hcontrols := h'.controls b
    rw [h.typeOf_eq] at hcontrols
    exact hcontrols.trans (h.controls b)
  control b a ha := by
    rcases h'.control b a ha with ha | ha
    · exact h.control b a ha
    · exact .inr (h.isOperand_iff.mp ha)

/-- Types are all that the uses of a value want. -/
theorem takes_iff {result : FuncRef → Ty} {x x' : Value} {types : List (Option Ty)}
    (hop : x'.op = x.op) (htype : x'.type = x.type) (haux : x'.aux = x.aux) :
    Takes result x' types ↔ Takes result x types := by
  unfold Takes
  rw [hop, htype, haux]

theorem typed (h : Retyped m m') (hm : m.Typed) : m'.Typed where
  toRouted := h.routed hm.toRouted
  standard v := by
    rw [h.typeOf_eq]
    exact hm.standard v
  constant v hconst hop := by
    rw [(h.value v).1] at hconst hop
    rw [h.typeOf_eq]
    exact hm.constant v hconst hop
  other {b v} hv hop := by
    rw [(h.value v).1] at hop
    rw [h.typeOf_eq]
    exact hm.other (h.listed b v hv) hop
  takes {b v} hv := by
    have htakes := hm.takes (h.listed b v hv)
    rw [h.resultOf_eq, takes_iff (h.value v).1 (h.value v).2.1 (h.value v).2.2, argTypes,
      h.typeOf_eq]
    by_cases hop : (m.value v).op = .phi
    · unfold Takes at htakes ⊢
      rw [hop] at htakes ⊢
      intro t ht
      rcases h.phi v t hop ht with ht | ht
      · exact htakes t ht
      · exact ht
    · rw [h.types v hop]
      exact htakes
  operand {b v a} hv ha := by
    rw [h.isOperand_iff]
    rcases h.arg v a ha with ha | ha
    · exact hm.operand (h.listed b v hv) ha
    · exact ha
  control {b a} ha := by
    rw [h.isOperand_iff]
    rcases h.control b a ha with ha | ha
    · exact hm.control ha
    · exact ha
  ret {b a} hkind hhead := by
    have hheads := congrArg List.head? (h.controls b)
    rw [List.head?_map, List.head?_map, hhead] at hheads
    rw [h.typeOf_eq, h.resultOf_eq, (h.block b).1]
    rw [(h.block b).2.1] at hkind
    cases hc : (m.block b).controls.head? with
    | none => simp [hc] at hheads
    | some x =>
      rw [hc] at hheads
      cases x with
      | none => simp at hheads
      | some c =>
        have heq : m.typeOf a = m.typeOf c := by simpa using hheads
        rw [heq]
        exact hm.ret hkind hc

theorem foldl {α : Type} {change : Module → α → Module} (hchange : ∀ m x, Retyped m (change m x))
    (xs : List α) (m : Module) : Retyped m (xs.foldl change m) :=
  List.foldlRecOn (motive := Retyped m) _ _ (refl m) fun m' h x _ => h.trans (hchange m' x)

/-! ## Removing -/

theorem of_recounted (h : Recounted m m') : Retyped m m' := by
  refine of_sameArgs ⟨fun f => ?_, fun b => ?_⟩ h.size h.value (fun b => ?_) fun b v hv => ?_
  · rw [h.func]
    exact .refl _
  · rw [h.block]
    exact ⟨rfl, rfl, rfl⟩
  · rw [h.block]
  · rwa [h.block] at hv

theorem modifyBlock (m : Module) (b : BlockRef) {k : Block → Block}
    (hk : ∀ x, (k x).func = x.func ∧ (k x).kind = x.kind ∧ (k x).succs = x.succs)
    (hcontrols : ∀ x, (k x).controls = x.controls)
    (hsub : ∀ v ∈ (k (m.block b)).values, v ∈ (m.block b).values) :
    Retyped m (m.modifyBlock b k) := by
  refine of_sameArgs ⟨fun _ => .refl _, fun c => ?_⟩ rfl (fun _ => .refl _) (fun c => ?_) fun c v hv => ?_
  · rw [block_modifyBlock]
    split
    · exact hk _
    · exact ⟨rfl, rfl, rfl⟩
  · rw [block_modifyBlock]
    split
    · exact hcontrols _
    · rfl
  · rw [block_modifyBlock] at hv
    split at hv
    next h =>
      obtain ⟨rfl, -⟩ := h
      exact hsub v hv
    next => exact hv

theorem modifyFuncBlocks (m : Module) (f : FuncRef) (blocks : List BlockRef) :
    Retyped m (m.modifyFunc f fun fn => { fn with blocks := blocks }) := by
  refine of_sameArgs ⟨fun g => ?_, fun _ => ⟨rfl, rfl, rfl⟩⟩ rfl (fun _ => .refl _) (fun _ => rfl)
    fun b v hv => hv
  rw [func_modifyFunc]
  split
  · exact ⟨rfl, rfl, rfl, rfl⟩
  · exact .refl _

/-! ## Replacing operands -/

theorem modifyArgs (m : Module) (v : ValueRef) (k : List (Option ValueRef) → List (Option ValueRef))
    (htypes : (m.value v).op ≠ .phi → (k (m.value v).args).map (Option.map m.typeOf) = m.argTypes v)
    (hphi : ∀ t, (m.value v).op = .phi → some t ∈ (k (m.value v).args).map (Option.map m.typeOf) →
      some t ∈ m.argTypes v ∨ t = m.typeOf v)
    (harg : ∀ a, some a ∈ k (m.value v).args → some a ∈ (m.value v).args ∨ m.IsOperand a) :
    Retyped m (m.modifyValue v fun x => { x with args := k x.args }) := by
  have hvalue : ∀ w, (m.modifyValue v fun x => { x with args := k x.args }).value w =
      { m.value w with
        args := if v = w ∧ w < m.values.size then k (m.value w).args else (m.value w).args } := by
    intro w
    rw [value_modifyValue]
    split <;> rfl
  have hcases : ∀ w (P : List (Option ValueRef) → Prop), P (m.value w).args →
      (v = w → P (k (m.value w).args)) →
      P ((m.modifyValue v fun x => { x with args := k x.args }).value w).args := by
    intro w P hsame hchanged
    rw [hvalue]
    split
    next h => exact hchanged h.1
    next => exact hsame
  refine ⟨⟨fun _ => .refl _, fun _ => ⟨rfl, rfl, rfl⟩⟩, Array.size_modify .., fun w => ?_,
    fun b w hw => hw, fun w hop => ?_, fun w t hop => ?_, fun w a => ?_, fun b => rfl,
    fun b a ha => .inl ha⟩
  · rw [typeOf, hvalue]
    exact ⟨rfl, rfl, rfl⟩
  · refine hcases w (fun args => args.map (Option.map m.typeOf) = m.argTypes w) rfl ?_
    rintro rfl
    exact htypes hop
  · refine hcases w (fun args => some t ∈ args.map (Option.map m.typeOf) → _) .inl ?_
    rintro rfl
    exact hphi t hop
  · refine hcases w (fun args => some a ∈ args → _) .inl ?_
    rintro rfl
    exact harg a

theorem removePhiArg (m : Module) (i : Nat) (v : ValueRef) : Retyped m (m.removePhiArg i v) := by
  unfold Module.removePhiArg
  dsimp only
  split
  next hcond =>
    have hdrop := of_recounted (recounted_dropUses m [(m.value v).args.getD i none])
    refine hdrop.trans (modifyArgs _ v (·.eraseIdx i) ?_ ?_ ?_)
    · intro hop
      rw [(hdrop.value v).1] at hop
      simp [hop] at hcond
    · intro t _ ht
      rw [← eraseIdx_map] at ht
      exact .inl (mem_of_mem_eraseIdx ht)
    · exact fun a ha => .inl (mem_of_mem_eraseIdx ha)
  next => exact refl m

theorem removePred (m : Module) (b p : BlockRef) : Retyped m (m.removePred b p) := by
  unfold Module.removePred
  split
  next => exact refl m
  next i _ =>
    refine trans (modifyBlock m b ?_ ?_ fun v hv => hv) (foldl (fun m v => removePhiArg m i v) _ _)
    · exact fun _ => ⟨rfl, rfl, rfl⟩
    · exact fun _ => rfl

section

variable {old new : ValueRef} (htype : m.typeOf new = m.typeOf old) (hnew : m.IsOperand new)

theorem moveUses (m : Module) (old new : ValueRef) (n : Int) :
    Retyped m ((m.modifyValue old fun x => { x with uses := x.uses - n }).modifyValue new fun x =>
      { x with uses := x.uses + n }) :=
  of_recounted ((recounted_modifyValue m old (· - n)).trans (recounted_modifyValue _ new (· + n)))

include htype

theorem map_typeOf_swap (xs : List (Option ValueRef)) :
    (xs.map fun x => if x == some old then some new else x).map (Option.map m.typeOf) =
      xs.map (Option.map m.typeOf) := by
  rw [map_map]
  refine map_congr_left fun x _ => ?_
  by_cases hx : x = some old <;> simp [hx, htype]

include hnew

omit htype in
theorem some_mem_swap (h : some a ∈ xs.map fun x => if x == some old then some new else x) :
    some a ∈ xs ∨ m.IsOperand a := by
  obtain ⟨x, hx, hxa⟩ := mem_map.mp h
  split at hxa
  · exact .inr (Option.some.inj hxa ▸ hnew)
  · exact .inl (hxa ▸ hx)

theorem replaceInArgs (v : ValueRef) : Retyped m (m.replaceInArgs old new v) := by
  unfold Module.replaceInArgs
  dsimp only
  split
  · exact refl m
  · refine trans (modifyArgs m v _ (fun _ => ?_) (fun t _ ht => ?_) fun a ha => ?_) (moveUses ..)
    · exact map_typeOf_swap htype _
    · rw [map_typeOf_swap htype] at ht
      exact .inl ht
    · exact some_mem_swap hnew ha

theorem replaceInControls (b : BlockRef) : Retyped m (m.replaceInControls old new b) := by
  unfold Module.replaceInControls
  dsimp only
  split
  · exact refl m
  refine trans ?_ (moveUses ..)
  refine ⟨⟨fun _ => .refl _, fun c => ?_⟩, rfl, fun v => ⟨rfl, rfl, rfl⟩, fun c v hv => ?_,
    fun v _ => rfl, fun v t _ ht => .inl ht, fun v a ha => .inl ha, fun c => ?_, fun c a ha => ?_⟩
  · rw [block_modifyBlock]
    split <;> exact ⟨rfl, rfl, rfl⟩
  · rw [block_modifyBlock] at hv
    split at hv <;> exact hv
  · rw [block_modifyBlock]
    split
    · exact map_typeOf_swap htype _
    · rfl
  · rw [block_modifyBlock] at ha
    split at ha
    · exact some_mem_swap hnew ha
    · exact .inl ha

theorem replaceUses (f : FuncRef) : Retyped m (m.replaceUses f old new) := by
  have hkeep : ∀ {m'}, Retyped m m' → m'.typeOf new = m'.typeOf old ∧ m'.IsOperand new := by
    intro m' h
    exact ⟨by rw [h.typeOf_eq, htype], h.isOperand_iff.mpr hnew⟩
  refine List.foldlRecOn (motive := Retyped m) _ _ (refl m) fun m' h b _ => ?_
  have hargs : Retyped m ((m'.block b).values.foldl (Module.replaceInArgs · old new ·) m') :=
    List.foldlRecOn (motive := Retyped m) _ _ h fun m' h v _ =>
      h.trans (replaceInArgs (hkeep h).1 (hkeep h).2 v)
  exact hargs.trans (replaceInControls (hkeep hargs).1 (hkeep hargs).2 b)

end

/-- An argument of a phi value is set to a value of its type. -/
theorem fillPhi {phi held : ValueRef} (i : Nat) (hop : (m.value phi).op = .phi)
    (htype : m.typeOf held = m.typeOf phi) (hheld : m.IsOperand held) :
    Retyped m (m.fillPhi i phi held) := by
  refine trans (modifyArgs m phi (·.set i (some held)) (fun h => absurd hop h) (fun t _ ht => ?_)
    fun a ha => ?_) (of_recounted (recounted_modifyValue _ held (· + 1)))
  · rw [map_set] at ht
    rcases mem_or_eq_of_mem_set ht with ht | ht
    · exact .inl ht
    · exact .inr ((Option.some.inj ht).trans htype)
  · rcases some_mem_set ha with rfl | ha
    · exact .inr hheld
    · exact .inl ha

/-! ## Dead code -/

theorem detachBlock (m : Module) (b : BlockRef) : Retyped m (m.detachBlock b) := by
  unfold Module.detachBlock
  extract_lets m₁ m₂
  have h₁ : Retyped m m₁ := foldl (fun m s => removePred m s b) _ m
  have h₂ : Retyped m₁ m₂ := foldl (fun m v => of_recounted (recounted_dropUses m _)) _ m₁
  exact h₁.trans (h₂.trans (of_recounted (recounted_dropUses m₂ _)))

theorem removeUnreachable (m : Module) (f : FuncRef) : Retyped m (m.removeUnreachable f) := by
  unfold Module.removeUnreachable
  dsimp only
  split
  next => exact refl m
  next => exact trans (foldl detachBlock _ m) (modifyFuncBlocks _ f _)

/-- A block keeps some of its values, after counts have changed. -/
theorem keepValues {b : BlockRef} {kept : List ValueRef} (h : Recounted m m')
    (hsub : ∀ v ∈ kept, v ∈ (m.block b).values) :
    Retyped m (m'.modifyBlock b fun x => { x with values := kept }) := by
  refine (of_recounted h).trans (modifyBlock m' b (fun _ => ⟨rfl, rfl, rfl⟩) (fun _ => rfl)
    fun v hv => ?_)
  rw [h.block]
  exact hsub v hv

theorem recounted_dropValues (isDead : Value → Bool) (m : Module) (vs : List ValueRef) :
    Recounted m (dropValues isDead m vs).2 ∧ ∀ v ∈ (dropValues isDead m vs).1, v ∈ vs := by
  induction vs generalizing m with
  | nil => exact ⟨.refl m, fun v hv => hv⟩
  | cons v vs ih =>
    rw [dropValues]
    split
    next =>
      obtain ⟨h, hsub⟩ := ih (m.dropUses (m.value v).args)
      exact ⟨(recounted_dropUses m _).trans h, fun w hw => mem_cons_of_mem v (hsub w hw)⟩
    next =>
      obtain ⟨h, hsub⟩ := ih m
      exact ⟨h, fun w hw => cons_subset_cons v hsub hw⟩

theorem sweepBlock (isDead : Value → Bool) (m : Module) (b : BlockRef) :
    Retyped m (m.sweepBlock isDead b) :=
  keepValues (recounted_dropValues isDead m _).1 (recounted_dropValues isDead m _).2

theorem removeDeadValues (m : Module) (f : FuncRef) : Retyped m (m.removeDeadValues f) := by
  have hround : ∀ fuel m, Retyped m (sweepUntilStable f fuel m) := by
    intro fuel
    induction fuel with
    | zero => exact refl
    | succ fuel ih =>
      intro m
      rw [sweepUntilStable]
      split
      next => exact foldl (sweepBlock isDead) _ m
      next => exact (foldl (sweepBlock isDead) _ m).trans (ih _)
  exact hround _ m

/-! ## Folding phi values -/

theorem some_mem_of_trivialPhi? {x : Value} (h : trivialPhi? v x = some a) : some a ∈ x.args := by
  unfold trivialPhi? at h
  split at h
  next => cases h
  next c cs hargs =>
    split at h
    next =>
      obtain rfl := Option.some.inj h
      have hmem : c ∈ (x.args.filterMap id).filter (· != v) := by
        rw [hargs]
        exact mem_cons_self
      exact mem_filterMap_id.mp (mem_filter.mp hmem).1
    next => cases h

/-- The argument that a phi value is replaced by has its type. -/
theorem foldPhi {b : BlockRef} {changed : Bool} (hm : m.Typed) (h : Retyped m m')
    (hv : v ∈ (m.block b).values) : Retyped m (Module.foldPhi f (m', changed) v).1 := by
  rw [Module.foldPhi]
  split
  next => exact h
  next hop =>
    have hop' : (m'.value v).op = .phi := by simpa using hop
    have hphi := (h.value v).1.symm.trans hop'
    split
    next a ha =>
      have harg := some_mem_of_trivialPhi? ha
      have htype : m.typeOf a = m.typeOf v := by
        rcases h.phi v (m.typeOf a) hphi (mem_map.mpr ⟨some a, harg, rfl⟩) with ht | ht
        · exact hm.type_of_phi hv hphi ht
        · exact ht
      have hoperand : m.IsOperand a := by
        rcases h.arg v a harg with ha | ha
        · exact hm.operand hv ha
        · exact ha
      refine h.trans (replaceUses ?_ (h.isOperand_iff.mpr hoperand) f)
      rw [h.typeOf_eq]
      exact htype
    next => exact h

theorem foldPhis (fuel : Nat) (hm : m.Typed) : Retyped m (Module.foldPhis f fuel m) := by
  induction fuel generalizing m with
  | zero => exact refl m
  | succ fuel ih =>
    have h : Retyped m ((m.func f).blocks.foldl (fun (s : Module × Bool) b =>
        (s.1.block b).values.foldl (Module.foldPhi f) s) (m, false)).1 := by
      let Kept (s : Module × Bool) : Prop := Retyped m s.1
      refine List.foldlRecOn (motive := Kept) _ _ (refl m) fun s hs b _ => ?_
      refine List.foldlRecOn (motive := Kept) _ _ hs fun s' hs' v hv => ?_
      exact foldPhi hm hs' (hs.listed b v hv)
    rw [Module.foldPhis]
    dsimp only
    split
    next =>
      have h' := h.trans (foldl (sweepBlock isDeadPhi) (m.func f).blocks _)
      exact h'.trans (ih (h'.typed hm))
    next => exact h

end Retyped

end Module

end SsaCompiler.Ssa
