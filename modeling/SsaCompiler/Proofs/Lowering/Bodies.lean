import SsaCompiler.Proofs.Core.Resolution
import SsaCompiler.Proofs.Lowering.Bindings

/-!
# Statements and methods

A statement is lowered from an open block. If it returns on every way through it, the current block
has an end afterwards, and otherwise it is open. No other block is left open on the way. Statements
that follow a return are not lowered, so no block is ended twice, and nothing is appended behind an
end.

Variables are bound where they are declared. If every variable is declared before it is used, and no
two declarations have the same number, then storage is found whenever it is wanted, and never given
twice. And if all operands have values, the statements leave the module fit for verification.
-/

namespace SsaCompiler

open List

namespace Core

/-! ## Variables of statements -/

/-- The variables that a statement declares for those that follow it. -/
def Stmt.declared : Stmt → List Nat
  | .declare v | .bind v _ => [v.id]
  | .destructure vars _ => vars.map Var.id
  | _ => []

mutual

/-- Whether a statement is fit: it uses variables of `V` only, and its expressions are fit. -/
def Stmt.Fit (a : Demands) (V : List Nat) : Stmt → Prop
  | .retVoid => True
  | .declare v => a.strict → v.SizeIn V
  | .free v => a.strict → v.id ∈ V
  | .expr x | .bind _ x | .destructure _ x | .ret x _ => x.Fit a V
  | .assign v x | .fieldAssign v _ x => (a.strict → v.id ∈ V) ∧ x.Fit a V
  | .indexAssign x i _ _ y => x.Fit a V ∧ i.Fit a V ∧ y.Fit a V
  | .branch c body rest => c.Fit a V ∧ Stmt.FitAll a V body ∧ Otherwise.Fit a V rest
  | .loop c body => c.Fit a V ∧ Stmt.FitAll a V body

/-- Whether statements are fit, where each sees the variables that those before it declare. -/
def Stmt.FitAll (a : Demands) (V : List Nat) : List Stmt → Prop
  | [] => True
  | s :: ss => Stmt.Fit a V s ∧ Stmt.FitAll a (s.declared ++ V) ss

/-- Whether the other ways of a conditional statement are fit. -/
def Otherwise.Fit (a : Demands) (V : List Nat) : Otherwise → Prop
  | .none => True
  | .elseIf c body rest => c.Fit a V ∧ Stmt.FitAll a V body ∧ Otherwise.Fit a V rest
  | .final body => Stmt.FitAll a V body

end

/-- Whether the lengths of the arrays among parameters are held by variables that are bound before. -/
def Var.SizesIn (V : List Nat) : List Var → Prop
  | [] => True
  | v :: vs => v.SizeIn V ∧ SizesIn (v.id :: V) vs

/-- Whether a method is fit: its variables stand for parameters, and it uses variables only after they
have been bound. -/
structure Method.Fit (a : Demands) (m : Method) : Prop where
  sizes : a.strict → Var.SizesIn [] m.vars
  index : a.whole → ∀ v ∈ m.vars, v.index.toNat < m.origin.method.params.length
  body : Stmt.FitAll a (m.vars.map Var.id) m.body

end Core

/-- Numbers without repetition, none of them in `U`. -/
def Fresh (bs U : List Nat) : Prop :=
  bs.Nodup ∧ ∀ b ∈ bs, b ∉ U

theorem fresh_append {as bs U : List Nat} : Fresh (as ++ bs) U ↔ Fresh as U ∧ Fresh bs (as ++ U) := by
  unfold Fresh
  rw [nodup_append]
  constructor
  · rintro ⟨⟨has, hbs, hne⟩, hU⟩
    refine ⟨⟨has, fun b hb => hU b (mem_append_left _ hb)⟩, hbs, fun b hb hmem => ?_⟩
    rcases mem_append.mp hmem with hmem | hmem
    · exact hne b hmem b hb rfl
    · exact hU b (mem_append_right _ hb) hmem
  · rintro ⟨⟨has, hU⟩, hbs, hU'⟩
    refine ⟨⟨has, hbs, ?_⟩, fun b hb hmem => ?_⟩
    · rintro a ha _ hb rfl
      exact hU' a hb (mem_append_left _ ha)
    · rcases mem_append.mp hb with hb | hb
      · exact hU b hb hmem
      · exact hU' b hb (mem_append_right _ hmem)

theorem fresh_cons {a : Nat} {bs U : List Nat} : Fresh (a :: bs) U ↔ a ∉ U ∧ Fresh bs (a :: U) := by
  have h : Fresh [a] U ↔ a ∉ U := by simp [Fresh]
  rw [← h]
  exact @fresh_append [a] bs U

namespace Lowering

open SsaCompiler.Core (Var)
open Ssa (ValueRef BlockRef)
open Scene

variable {κ : Scene} {V U U' : List Nat} {P : List BlockRef} {Γ : List Item} {dv : Defaults}
  {o : Bool} {cond : Lowering ValueRef} {rest : Core.Otherwise}

/-! ## Several variables -/

/-- The variables of a pattern are bound one by one. -/
theorem passes_bindMembers {tuple : ValueRef} {Γ : List Item} {V U : List Nat} : ∀ vs : List Var,
    (κ.strict → Fresh (vs.map Var.id) U) → [Tells Γ (.value tuple)] →
      κ.Passes (κ.At true P V U) Γ (bindMembers tuple vs)
        (fun _ => κ.At true P (vs.map Var.id ++ V) (vs.map Var.id ++ U)) fun _ => []
  | [], _, _ => .pure fun _ hs => hs
  | v :: vs, hb, _ => by
    rw [map_cons, fresh_cons] at hb
    have hv : Known (κ.strict → v.id ∉ U) := ⟨fun hs => (hb hs).1⟩
    refine .next fun x => .next fun _ => ?_
    exact (passes_bindMembers vs fun hs => (hb hs).2).after fun _ s hs =>
      hs.vars perm_middle.symm.subset perm_middle.subset

theorem passes_bindParams {params : List ValueRef} {Γ : List Item} {V U : List Nat} :
    ∀ vs : List Var, (κ.strict → Core.Var.SizesIn V vs) → (κ.strict → Fresh (vs.map Var.id) U) →
      (∀ v ∈ vs, Tells Γ (.value (params.getD v.index.toNat 0))) →
        κ.Passes (κ.At true P V U) Γ (bindParams params vs)
          (fun _ => κ.At true P (vs.map Var.id ++ V) (vs.map Var.id ++ U)) fun _ => []
  | [], _, _, _ => .pure fun _ hs => hs
  | v :: vs, h, hb, hp => by
    rw [map_cons, fresh_cons] at hb
    have hv : Known (κ.strict → v.id ∉ U) := ⟨fun hs => (hb hs).1⟩
    have hparam := hp v (mem_cons_self ..)
    refine .bind (binds_bindParam (fun hs => (h hs).1) P U).toPasses fun _ => ?_
    exact (passes_bindParams vs (fun hs => (h hs).2) (fun hs => (hb hs).2) fun w hw =>
      have hw := hp w (mem_cons_of_mem _ hw)
      inferInstance).after fun _ s hs =>
        hs.vars perm_middle.symm.subset perm_middle.subset

/-! ## Ways that part and meet -/

/-- The items that a block is, if there is one. -/
def blockItems (b : Option BlockRef) : List Item :=
  b.toList.map .block

instance {b : BlockRef} [Tells Γ (.block b)] : TellsAll Γ (blockItems (some b)) :=
  inferInstanceAs (TellsAll Γ [.block b])

instance {b : BlockRef} : Tells (blockItems (some b)) (.block b) :=
  inferInstanceAs (Tells [.block b] (.block b))

instance : TellsAll Γ (blockItems none) :=
  inferInstanceAs (TellsAll Γ [])

instance passes_isTerminated : κ.Does (κ.At o P V U) Γ (build .isTerminated)
    (fun r s => r = !o ∧ κ.At o P V U s) fun _ => [] where
  leads := leads_isTerminated
  ensures _ := ensures_isTerminated

/-- Behind a way that may have returned, the block where the ways meet is made if it is reached. -/
theorem passes_merge {after : Option BlockRef} [h : TellsAll Γ (blockItems after)] :
    κ.Passes (κ.At o (after.toList ++ P) V U) Γ (merge after)
      (fun r s => ((∀ b ∈ after, r = some b) ∧ r.isSome = (after.isSome || o)) ∧
        κ.At false (r.toList ++ P) V U s) blockItems := by
  refine .next fun ended => ?_
  split
  next hended =>
    refine .pure fun s hs => ?_
    obtain rfl : o = false := by simpa [hended] using hs.1
    exact ⟨⟨fun b hb => hb, (Bool.or_false _).symm⟩, hs.2⟩
  next hended =>
    have ho : ∀ {p : Prop}, (ended = !o ∧ p) → o = true := fun hs => by simpa [hended] using hs.1
    have hbr : ∀ {Δ : List Item} {b : BlockRef} [TellsAll Δ (blockItems (some b))],
        κ.Passes (κ.At true (b :: P) V U) Δ (do build (.br b); return some b)
          (fun r s => r = some b ∧ κ.At false (r.toList ++ P) V U s) blockItems :=
      .next fun _ => .pure fun s hs => ⟨rfl, hs⟩
    cases after with
    | some b =>
      refine hbr.adapt fun s hs => ?_
      obtain rfl := ho hs
      exact ⟨hs.2, fun r t ht => ⟨⟨fun _ hb => ht.1.trans hb, by rw [ht.1]; rfl⟩, ht.2⟩⟩
    | none =>
      refine Passes.bind (J := fun b s => o = true ∧ κ.At true (b :: P) V U s)
        (passes_newBlock.adapt fun s hs => ⟨ho hs ▸ hs.2, fun b t ht => ⟨ho hs, ht⟩⟩) fun b => ?_
      refine hbr.adapt fun s hs =>
        ⟨hs.2, fun r t ht => ⟨⟨fun b hb => (nomatch hb), ?_⟩, ht.2⟩⟩
      rw [ht.1, hs.1]
      rfl

/-- Behind the first way of a conditional statement, the block of the other ways waits, and the block
where they meet does if there is one. Without other ways, both are the same block. -/
def Scene.Parted (κ : Scene) (hasRest : Bool) (after : Option BlockRef) (no : BlockRef)
    (P : List BlockRef) (V U : List Nat) (s : LoweringState) : Prop :=
  if hasRest then κ.At false (no :: (after.toList ++ P)) V U s
  else after = some no ∧ κ.At false (no :: P) V U s

theorem passes_branch (after : Option BlockRef) {body : Lowering Unit}
    {hasRest : Bool} [hafter : TellsAll Γ (blockItems after)] [κ.Evaluates V cond]
    (hbody : ∀ Q, κ.Passes (κ.At true Q V U) [] body (fun _ => κ.At o Q V U') fun _ => []) :
    κ.Passes (κ.At true (after.toList ++ P) V U) Γ (branch after cond body hasRest)
      (fun r s => (hasRest = true → r.1.isSome = (after.isSome || o)) ∧
        κ.Parted hasRest r.1 r.2 P V U' s) fun r => .block r.2 :: blockItems r.1 := by
  -- from the condition on, when the blocks have been made; `Q` is what waits beside the meeting block
  have hrest : ∀ {Δ : List Item} (yes no : BlockRef) (after : Option BlockRef) (Q : List BlockRef)
      [TellsAll Δ (blockItems after)] [Tells Δ (.block yes)] [Tells Δ (.block no)],
      κ.Passes (κ.At true (yes :: (after.toList ++ Q)) V U) Δ (do
        let r ← pure (after, no)
        let c ← cond
        build (.condBr c yes r.2)
        build (.setInsertPoint yes)
        body
        return (← merge r.1, r.2)) (fun r s => r.2 = no ∧
          ((∀ b ∈ after, r.1 = some b) ∧ r.1.isSome = (after.isSome || o)) ∧
            κ.At false (r.1.toList ++ Q) V U' s) fun r => .block r.2 :: blockItems r.1 := by
    intro Δ yes no after Q _ _ _
    rw [pure_bind]
    refine .next fun c => .next fun _ => .next fun _ => (hbody _).anywhere.bind fun _ => ?_
    exact passes_merge.bind fun r => .pure fun s hs => ⟨rfl, hs⟩
  refine .next fun yes => ?_
  cases hasRest with
  | true =>
    refine .next fun no => ?_
    refine (hrest yes no after (no :: P)).adapt fun s hs => ⟨hs.perm ?_, ?_⟩
    · exact (List.Perm.swap ..).trans (perm_middle.symm.cons yes)
    · rintro ⟨r, _⟩ t ⟨rfl, hr, ht⟩
      exact ⟨fun _ => hr.2, ht.perm perm_middle⟩
  | false =>
    have hmeet : ∀ {Δ : List Item} {b : BlockRef} [Tells Δ (.block yes)] [Tells Δ (.block b)],
        κ.Passes (κ.At true (yes :: b :: P) V U) Δ _
          (fun (r : Option BlockRef × BlockRef) s =>
            (false = true → r.1.isSome = (after.isSome || o)) ∧ κ.Parted false r.1 r.2 P V U' s)
          fun r => .block r.2 :: blockItems r.1 :=
      fun {Δ b} _ _ => (hrest yes b (some b) P).after
        fun r s hs => by
          obtain ⟨rfl, hr, hs⟩ := hs
          rw [hr.1 _ rfl] at hs
          exact ⟨fun h => absurd h Bool.false_ne_true, hr.1 _ rfl, hs⟩
    cases after with
    | some b =>
      have hb : Tells Γ (.block b) := ⟨fun hΓ => hafter.holds hΓ _ (mem_singleton_self _)⟩
      exact hmeet
    | none => exact .next fun b => hmeet.before fun s hs => hs.perm (.swap ..)

theorem passes_loop {body : Lowering Unit} [κ.Evaluates V cond]
    (hbody : ∀ Q, κ.Passes (κ.At true Q V U) [] body (fun _ => κ.At o Q V U') fun _ => []) :
    κ.Passes (κ.At true P V U) Γ (loop cond body) (fun _ => κ.At true P V U') fun _ => [] := by
  refine .next fun test => .next fun inner => .next fun after => ?_
  repeat refine .next fun _ => ?_
  refine (hbody _).anywhere.bind fun _ => .next fun ended => ?_
  split
  next hended =>
    refine Passes.before (I := κ.At true (after :: P) V U') inferInstance fun s hs => ?_
    obtain rfl : o = true := by simpa [hs.1] using hended
    exact hs.2
  next hended =>
    refine Passes.before (I := κ.At false (after :: P) V U') inferInstance fun s hs => ?_
    obtain rfl : o = false := by simpa [hs.1] using hended
    exact hs.2

/-! ## Statements -/

theorem returns_of_follows (h : follows rest = false) :
    rest.returns = false := by
  cases rest with
  | none =>
    rfl
  | elseIf c body rest => cases h
  | final body => cases h

/-- The ways of a conditional statement meet if one of them goes on. -/
theorem isSome_meeting {r r' : Option BlockRef} {a o : Bool}
    (hr : follows rest → r.isSome = (a || o)) (hr' : r'.isSome = (r.isSome || !rest.returns)) :
    r'.isSome = (a || !(!o && rest.returns)) := by
  cases hf : follows rest with
  | true =>
    rw [hr', hr hf]
    cases a <;> cases o <;> cases rest.returns <;> rfl
  | false =>
    rw [hr', returns_of_follows hf]
    cases a <;> cases o <;> cases r <;> rfl

theorem append_comm_subset {as bs U : List Nat} : bs ++ (as ++ U) ⊆ as ++ bs ++ U := by
  intro n hn
  simp only [mem_append] at hn ⊢
  rcases hn with hn | hn | hn
  · exact .inl (.inr hn)
  · exact .inl (.inl hn)
  · exact .inr hn

mutual

theorem passes_stmt [dv.Fine κ] {P : List BlockRef} {V U : List Nat} : ∀ s : Core.Stmt,
    κ.Asks (s.Fit κ.demands V) → (κ.strict → Fresh s.binds U) →
      κ.Passes (κ.At true P V U) [] (stmt dv s)
        (fun _ => κ.At (!s.returns) P (s.declared ++ V) (s.binds ++ U)) fun _ => []
  | .expr x, h, _ => by
    exact (yields_effect h P U).toPasses
  | .declare v, h, hb => by
    have hv : Known (κ.strict → v.id ∉ U) := ⟨fun hs => (fresh_cons.mp (hb hs)).1⟩
    exact (binds_bindDeclared (fun hs => h.first hs hs) P U).toPasses
  | .bind v init, h, hb => by
    have hv : Known (κ.strict → v.id ∉ U) := ⟨fun hs => (fresh_cons.mp (hb hs)).1⟩
    exact (binds_bindLocal h P U).toPasses
  | .destructure vars value, h, hb => by
    have hvalue : κ.Evaluates V (expr dv value) := fine_operand h
    exact .next fun _ => passes_bindMembers vars hb
  | .assign v value, h, _ | .fieldAssign v path value, h, _ => by
    have hv : Known (κ.strict → v.id ∈ V) := ⟨fun hs => (h.first hs).1 hs⟩
    have hvalue : (operand dv value).Fine κ V := fine_operand h.right
    unfold stmt Core.Stmt.returns Core.Stmt.binds
    exact inferInstanceAs (κ.Passes (κ.At true P V U) [] _ (fun _ => κ.At true P V U) fun _ => [])
  | .indexAssign x i checked elem value, h, _ => by
    have hfit : Known (κ.AsksExpr V x) := ⟨h.left⟩
    have hx : κ.Evaluates V (expr dv x) := fine_operand h.left
    have hi : κ.Evaluates V (expr dv i) := fine_operand h.right.left
    have hvalue : (operand dv value).Fine κ V := fine_operand h.right.right
    unfold stmt Core.Stmt.returns Core.Stmt.binds
    exact inferInstanceAs (κ.Passes (κ.At true P V U) [] _ (fun _ => κ.At true P V U) fun _ => [])
  | .branch cond body rest, h, hb => by
    have hcond : κ.Evaluates V (expr dv cond) := fine_operand h.left
    unfold stmt Core.Stmt.returns Core.Stmt.binds
    refine Passes.bind (passes_branch none fun Q => passes_stmts body h.right.left
      fun hs => (fresh_append.mp (hb hs)).1) fun r => ?_
    refine Passes.bind (J := fun r' s => r'.isSome = !(Core.anyReturns body && rest.returns) ∧
      κ.At false (r'.toList ++ P) V (rest.binds ++ (Core.Stmt.bindsAll body ++ U)) s)
      ((passes_otherwise rest h.right.right
        fun hs => (fresh_append.mp (hb hs)).2).adapt fun s hs => ⟨hs.2, fun r' t ht => ?_⟩)
      fun r' => ?_
    · have hmeet := isSome_meeting hs.1 ht.1
      rw [Bool.true_and, Bool.not_not, Option.isSome_none, Bool.false_or] at hmeet
      exact ⟨hmeet, ht.2⟩
    cases r' with
    | some b =>
      refine passes_setInsertPoint.adapt fun s hs =>
        ⟨hs.2, fun _ t ht => ?_⟩
      rw [← hs.1]
      exact ht.vars (List.Subset.refl _) append_comm_subset
    | none =>
      refine .pure fun s hs => ?_
      rw [← hs.1]
      exact hs.2.vars (List.Subset.refl _) append_comm_subset
  | .loop cond body, h, hb => by
    have hcond : κ.Evaluates V (expr dv cond) := fine_operand h.left
    exact passes_loop fun Q => passes_stmts body h.right hb
  | .retVoid, _, _ => by
    exact passes_retVoid.toPasses
  | .ret value result, h, _ => by
    exact passes_retValue h
  | .free v, h, _ => by
    have hv : Known (κ.strict → v.id ∈ V) := ⟨fun hs => h.first hs hs⟩
    exact (yields_release P U).toPasses

/-- Statements are lowered up to the first one that returns on every way through it. -/
theorem passes_stmts [dv.Fine κ] {o : Bool} {P : List BlockRef} {V U : List Nat} :
    ∀ ss : List Core.Stmt, κ.Asks (Core.Stmt.FitAll κ.demands V ss) →
      (κ.strict → Fresh (Core.Stmt.bindsAll ss) U) →
        κ.Passes (κ.At o P V U) [] (stmts dv ss)
          (fun _ => κ.At (o && !Core.anyReturns ss) P V (Core.Stmt.bindsAll ss ++ U)) fun _ => []
  | [], _, _ => by
    unfold stmts Core.anyReturns Core.Stmt.bindsAll
    refine .pure fun s hs => ?_
    rw [Bool.not_false, Bool.and_true]
    exact hs
  | s :: ss, h, hb => by
    unfold stmts Core.anyReturns Core.Stmt.bindsAll
    refine .next fun ended => ?_
    split
    next hended =>
      refine ((passes_stmt (P := P) s h.left fun hs => (fresh_append.mp (hb hs)).1).anywhere.bind
        fun _ => (passes_stmts ss h.right
          fun hs => (fresh_append.mp (hb hs)).2).anywhere).adapt fun t ht => ?_
      obtain rfl : o = true := by simpa [ht.1] using hended
      refine ⟨ht.2, fun _ u hu => ?_⟩
      rw [Bool.true_and, Bool.not_or]
      exact hu.vars (subset_append_right ..) append_comm_subset
    next hended =>
      refine .pure fun t ht => ?_
      obtain rfl : o = false := by simpa [ht.1] using hended
      exact ht.2.vars (List.Subset.refl _) (subset_append_right ..)

theorem passes_otherwise [dv.Fine κ] {after : Option BlockRef} {no : BlockRef}
    {P : List BlockRef} {V U : List Nat} : ∀ rest : Core.Otherwise, κ.Asks (rest.Fit κ.demands V) →
      (κ.strict → Fresh rest.binds U) →
        κ.Passes (κ.Parted (follows rest) after no P V U) (.block no :: blockItems after ++ [])
          (otherwise dv after no rest)
          (fun r s => r.isSome = (after.isSome || !rest.returns) ∧
            κ.At false (r.toList ++ P) V (rest.binds ++ U) s) blockItems
  | .none, _, _ => by
    refine .pure fun s hs => ?_
    obtain ⟨rfl, hs⟩ := hs
    exact ⟨rfl, hs⟩
  | .elseIf cond body rest, h, hb => by
    have hcond : κ.Evaluates V (expr dv cond) := fine_operand h.left
    refine Passes.bind (J := fun _ => κ.At true (after.toList ++ P) V U)
      passes_setInsertPoint.toPasses fun _ => ?_
    refine Passes.bind (passes_branch after fun Q => passes_stmts body h.right.left
      fun hs => (fresh_append.mp (hb hs)).1) fun r => ?_
    refine ((passes_otherwise rest h.right.right
      fun hs => (fresh_append.mp (hb hs)).2).weaken (by simp)).adapt fun s hs =>
        ⟨hs.2, fun r' t ht => ?_⟩
    have hmeet := isSome_meeting hs.1 ht.1
    rw [Bool.true_and, Bool.not_not] at hmeet
    exact ⟨hmeet, ht.2.vars (List.Subset.refl _) append_comm_subset⟩
  | .final body, h, hb => by
    refine Passes.bind (J := fun _ => κ.At true (after.toList ++ P) V U)
      passes_setInsertPoint.toPasses fun _ => ?_
    refine (passes_stmts body h hb).anywhere.bind fun _ => ?_
    exact passes_merge.after fun r s hs => ⟨hs.1.2, hs.2⟩

end

/-! ## Methods -/

/-- Between two methods, all blocks that are accounted for wait if they are open, and no variables have
storage but those of `U`. -/
structure Scene.Between (κ : Scene) (P : List BlockRef) (U : List Nat) (s : LoweringState) : Prop where
  intact : κ.Intact s
  nodup : P.Nodup
  isOpen : ∀ b ∈ P, s.module.IsOpen b
  all : ∀ b, s.module.IsOpen b → (κ.entry (s.module.block b).func).isSome → b ∈ P
  bound : κ.strict → ∀ v, (s.storage.lookup v).isSome → v ∈ U

theorem Scene.Between.enter {s : LoweringState} {b : BlockRef} (h : κ.Between (b :: P) U s) :
    κ.At true P [] U (s.standingAt b) :=
  have hb := h.isOpen b (mem_cons_self ..)
  ⟨⟨h.intact.functions, h.intact.own, h.intact.entry, h.intact.done⟩,
    ⟨b, rfl, hb.1, hb.2, h.nodup, fun c hc => h.isOpen c (mem_cons_of_mem _ hc), h.all⟩,
    fun _ _ hv => absurd hv not_mem_nil, h.bound⟩

theorem Scene.At.leave {s : LoweringState} (h : κ.At false P V U s) : κ.Between P U s := by
  obtain ⟨c, hc⟩ := h.stand
  refine ⟨h.intact, (nodup_cons.mp hc.nodup).2, hc.isOpen, fun b hb hw => ?_, h.bound⟩
  rcases mem_cons.mp (hc.all b hb hw) with rfl | hb'
  · exact absurd (hb.2.symm.trans hc.isTerminated) Bool.false_ne_true
  · exact hb'

/-- A method whose function is known is lowered from its entry block on. -/
theorem leads_method {m : Core.Method} {d : MethodFunc} {e : BlockRef} (hdv : dv.Fine κ)
    (hm : m.Fit κ.demands) (hb : κ.strict → Fresh m.binds U)
    (hret : m.origin.method.result.unnamed.isVoid = false → Core.anyReturns m.body)
    (hd : κ.functions.find? (fun d => d.method.same m.origin) = some d) (hdef : d.isDefined)
    (he : κ.entry d.func = some e) :
    κ.Leads (κ.Between (e :: P) U) (method dv m) fun _ => κ.Between P (m.binds ++ U) := by
  refine Triple.get_bind fun r hr => ?_
  have hfind : r.functions.find? (fun d => d.method.same m.origin) = some d := by
    obtain ⟨more, hmore⟩ := hr.intact.functions
    rw [← hmore, List.find?_append, hd]
    rfl
  rw [hfind]
  dsimp only
  rw [if_pos hdef]
  refine Triple.bind (leads_module (Q := fun n _ => (n.func d.func).entry = some e) fun s hs =>
    hs.intact.entry _ _ he) fun n => Triple.known fun hn => ?_
  rw [hn, Option.getD_some]
  refine Triple.bind (J := fun _ => κ.At true P [] U) ?_ fun _ => ?_
  · exact leads_of_runs fun _ _ hs => ⟨(), _, runs_setInsertPoint.mpr rfl, hs.enter⟩
  refine Triple.bind (passes_bindParams (Γ := m.vars.map fun v => .value _) m.vars
    hm.sizes (fun hs => (fresh_append.mp (hb hs)).1)
    fun v hv => .of_mem (mem_map.mpr ⟨v, hv, rfl⟩)).leads fun _ => ?_
  rw [append_nil]
  refine Triple.bind (passes_stmts m.body ⟨fun _ => hm.body, fun _ => hm.body⟩
    fun hs => (fresh_append.mp (hb hs)).2).leads fun _ => ?_
  refine Triple.bind leads_isTerminated fun ended => Triple.known ?_
  rintro rfl
  have hleave : ∀ s, κ.At false P (m.vars.map Var.id)
      (Core.Stmt.bindsAll m.body ++ (m.vars.map Var.id ++ U)) s → κ.Between P (m.binds ++ U) s :=
    fun s hs => (hs.vars (List.Subset.refl _) append_comm_subset).leave
  cases hreturns : Core.anyReturns m.body with
  | true => exact .pure hleave
  | false =>
    have hvoid : m.origin.method.result.unnamed.isVoid := by
      cases hv : m.origin.method.result.unnamed.isVoid with
      | true => rfl
      | false => exact absurd (hreturns.symm.trans (hret hv)) Bool.false_ne_true
    rw [hvoid]
    exact Triple.after (leads_end ending_retVoid) fun _ => hleave

/-- The functions have a value for each parameter of their methods. -/
def paramItems (F : List MethodFunc) : List Item :=
  F.map fun d => .params d.func d.method.method.params.length

/-- The body of a method is lowered into the function of the method. -/
theorem ensures_method {m : Core.Method} (hw : κ.whole) (hdv : dv.Fine κ)
    (hm : m.Fit κ.demands) (hb : κ.strict → Fresh m.binds [])
    (hsame : ∀ d ∈ κ.functions, d.method.same m.origin → d.method = m.origin) :
    Ensures κ.functions (paramItems κ.functions) (method dv m) fun _ => [] := by
  intro env s u t hs hΓ hr
  simp only [method, runs_bind, runs_get] at hr
  obtain ⟨_, s, ⟨rfl, rfl⟩, hr⟩ := hr
  split at hr
  next =>
    obtain ⟨-, rfl⟩ := runs_pure.mp hr
    exact ⟨hs, .refl _, holds_nil⟩
  next d hd =>
    rw [hs.functions] at hd
    have hmem := mem_of_find?_eq_some hd
    have hfound := List.find?_some hd
    have horigin := hsame d hmem hfound
    have hparams : Tells (paramItems κ.functions)
        (.params d.func m.origin.method.params.length) :=
      .of_mem (mem_map.mpr ⟨d, hmem, by rw [horigin]⟩)
    have hbody : Holds s.module (.body d.func :: paramItems κ.functions) := by
      intro i hi
      rcases mem_cons.mp hi with rfl | hi
      · exact hs.bodies d hmem
      · exact hΓ i hi
    refine (show Ensures κ.functions (.body d.func :: paramItems κ.functions) _ fun _ => [] from ?_)
      hs hbody hr
    split
    · refine (ensures_module (f := d.func) (n := m.origin.method.params.length)).bind fun fn => ?_
      refine ensures_setInsertPoint.bind fun _ => ?_
      refine ((passes_bindParams (P := []) m.vars hm.sizes
        (fun hs => (fresh_append.mp (hb hs)).1) fun v hv => ?_).ensures hw).bind fun _ => ?_
      · have hv := mem_range.mpr (hm.index hw v hv)
        refine .of_mem ?_
        simp only [nil_append, cons_append, mem_cons, mem_append]
        exact .inr (.inl (mem_map.mpr ⟨_, hv, rfl⟩))
      refine ((passes_stmts (o := true) (P := []) m.body ⟨fun _ => hm.body, fun _ => hm.body⟩
        fun hs => (fresh_append.mp (hb hs)).2).ensures hw).anywhere.bind
          fun _ => ?_
      refine ensures_isTerminated.bind fun ended => ?_
      split
      · split
        · exact Ensures.fail.bind (g := fun _ => []) fun _ => ensures_end ending_retVoid fun _ _ => .inl
        · exact ensures_end ending_retVoid fun _ _ => .inl
      · exact .pure
    · exact .pure

/-- Only the blocks that are made on the way are accounted for. -/
def Scene.lenient : Scene where
  strict := False
  whole := False
  functions := []
  entry _ := none
  done _ := False
  done_entry _ := False.elim

/-- A list of statements that is lowered from an open block on ends in a block that has its end if
some statement returns, and in an open block otherwise. -/
theorem isTerminated_of_runs_stmts {values : List Core.DefaultValue} {depth : Nat} {env : Env}
    {s t : LoweringState} {ss : List Core.Stmt} {b : BlockRef} (hb : s.builder.current = some b)
    (hopen : s.module.IsOpen b)
    (hr : Runs (stmts (defaultsWithin values depth) ss) env s () t) :
    ∃ c, t.builder.current = some c ∧ (t.module.block c).isTerminated = Core.anyReturns ss := by
  have hs : Scene.lenient.At true [] [] [] s := by
    refine ⟨⟨List.nil_prefix, False.elim, fun _ _ he => ?_, fun _ _ => id⟩, ⟨b, hb, hopen.1, hopen.2,
      pairwise_singleton .., forall_mem_nil _, fun _ _ hw => ?_⟩,
      False.elim, False.elim⟩
    · cases he
    · cases hw
  have hdv : (defaultsWithin values depth).Fine .lenient :=
    fine_defaultsWithin (fun _ _ => ⟨False.elim, False.elim⟩) depth
  have hpasses := @passes_stmts .lenient _ hdv true [] [] [] ss ⟨False.elim, False.elim⟩ False.elim
  obtain ⟨c, hc⟩ := ((hpasses.leads trivial hs).1 () t hr).stand
  refine ⟨c, hc.current, hc.isTerminated.trans ?_⟩
  rw [Bool.true_and, Bool.not_not]

end Lowering

end SsaCompiler
