import SsaCompiler.Proofs.Simulation.Flow

/-!
# Calls

A call evaluates its arguments, enters the function of the method, and returns from there. The
function stores its parameters into slots first. Its objects are released when it returns; those of
its callers are still there.
-/

namespace SsaCompiler.Simulation

open List
open Ssa (ValueRef BlockRef FuncRef Value Module)
open Core (Store Eval)
open Lowering (Stands Emitted Stage Lowers)
open Machine

variable {C : Context} {A : Act} {b e : BlockRef} {s t : LoweringState} {n : Nat} {σ σ' : Store}
  {w : World} {fr : Frame} {callers : List Frame} {env : Env} {r v : ValueRef} {p : Primitive}
  {i : Int} {depth : Nat} {regs : Registers} {m : Core.Method} {as : List Int} {g : FuncRef}
  {fuel : Nat}

/-! ## Arguments -/

/-- An integer is a value of a plain type. -/
def Fits (t : Ty) (a : Int) : Prop :=
  ∃ p, t.primitive? = some p ∧ p.isPlain ∧ p.Holds a

/-- Values of the code so far denote arguments. -/
def Args (C : Context) (vs : List ValueRef) (ts : List Ty) (as : List Int) : Condition :=
  fun s _ _ fr => List.Forall₂ (fun v a => v < s.module.values.size ∧
    Reads C.module fr.regs v (Word.ofInt a)) vs as ∧ List.Forall₂ Fits ts as

instance {base : Nat} {vs : List ValueRef} {ts : List Ty} {as : List Int} :
    Lasting base (Args C vs ts as) :=
  ⟨fun h hext hk => ⟨h.1.imp fun _ _ h =>
    ⟨Nat.lt_of_lt_of_le h.1 hext.grows.values, hk.reads h.2 h.1⟩, h.2⟩⟩

/-- Wherever the code of arguments stands, the machine follows their evaluation. -/
def FollowsAll (C : Context) (depth : Nat) (cx : Lowering (List ValueRef)) (ev : Eval (List Int))
    (ts : List Ty) : Prop :=
  ∀ (S : Site C depth) (P : List BlockRef) (F : Condition) (n : Nat) [Stable S.act.base F],
    Sim S P (Now S F n) cx ev fun vs as => Now S (F.and (Args C vs ts as)) n

theorem followsAll_nil : FollowsAll C depth (pure []) (pure []) [] :=
  fun _ _ _ _ _ => .pure fun h => h.imp (fun h => ⟨h, .nil, .nil⟩) le_rfl

theorem followsAll_cons {ty : Ty} {ts : List Ty} {cx : Lowering ValueRef}
    {cxs : Lowering (List ValueRef)} {ex : Eval Int} {exs : Eval (List Int)} {nx nxs : Nat}
    (hp : ty.primitive? = some p) (hplain : p.isPlain) (hl : Lowers C.functions cx nx)
    (hx : Follows C depth cx ex p 0 0) (hls : Lowers C.functions cxs nxs)
    (hxs : FollowsAll C depth cxs exs ts) :
    FollowsAll C depth (do return (← cx) :: (← cxs)) (do return (← ex) :: (← exs)) (ty :: ts) := by
  intro S P F n _
  refine .bind (hx S P F n) fun v a => .bind (hxs S P _ n) fun vs as => .pure fun h => ?_
  refine h.imp (fun ⟨⟨hF, hlt, hden⟩, hreads, hfits⟩ => ⟨hF, ?_, ?_⟩) le_rfl
  · exact .cons ⟨hlt, hden.reads⟩ hreads
  · exact .cons ⟨p, hp, hplain, hden.holds⟩ hfits

/-! ## Parameters -/

/-- A value stands for a parameter of a type. -/
def IsParam (C : Context) (v : ValueRef) (ty : Ty) : Prop :=
  (C.module.value v).op = .arg ∧ ∀ p, ty.primitive? = some p → C.module.typeOf v = p.machineType

/-- The parameters of a function whose type represents that of a method. -/
theorem isParam_of_isArg {ts : List Ssa.Ty} {vs : List ValueRef} {tys : List Ty}
    (hvs : List.Forall₂ (Module.IsArg C.module) vs ts)
    (hts : List.Forall₂ Lowering.Represents ts tys) : List.Forall₂ (IsParam C) vs tys := by
  induction hvs generalizing tys with
  | nil =>
    cases hts
    exact .nil
  | cons hv _ ih =>
    cases hts with
    | cons ht hts => exact .cons ⟨hv.op, fun p hp => hv.type.trans (ht p hp)⟩ (ih hts)

theorem getD_paramRegs_of_not_mem {m : Module} : ∀ {vs : List ValueRef} {xs : List Word}
    {regs : Registers}, v ∉ vs → (Program.paramRegs m vs xs regs).getD v 0 = regs.getD v 0
  | [], _, _, _ => rfl
  | _ :: _, [], _, _ => rfl
  | a :: vs, x :: xs, regs, h => by
    rw [mem_cons, not_or] at h
    exact (getD_paramRegs_of_not_mem h.2).trans (getD_insert_of_ne h.1)

/-- The registers of parameters hold the arguments. -/
theorem denotes_paramRegs : ∀ {vs : List ValueRef} {ts : List Ty} {as : List Int} {regs : Registers},
    List.Forall₂ (IsParam C) vs ts → List.Forall₂ Fits ts as → vs.Nodup → ∀ {i : Nat} {ty : Ty},
      ts[i]? = some ty → ty.primitive? = some p →
      Denotes C (Program.paramRegs C.module vs (as.map Word.ofInt) regs) (vs.getD i 0) p
        (as.getD i 0)
  | _, _, _, _, .nil, .nil, _, i, ty, hty, _ => absurd hty (by simp)
  | v :: vs, ty' :: ts, a :: as, regs, .cons hv hvs, .cons ha has, hnodup, i, ty, hty, hp => by
    rw [nodup_cons] at hnodup
    cases i with
    | zero =>
      obtain rfl : ty' = ty := Option.some.inj hty
      obtain ⟨p', hp', hplain, hholds⟩ := ha
      obtain rfl : p' = p := Option.some.inj (hp'.symm.trans hp)
      refine ⟨InRegister.reads ?_ ?_, hholds, hv.2 p' hp⟩
      · show InRegister C.module v
        unfold InRegister
        rw [hv.1]
        decide
      · show (Program.paramRegs C.module vs (as.map Word.ofInt) _).getD v 0 = Word.ofInt a
        rw [getD_paramRegs_of_not_mem hnodup.1, getD_insert_self, hv.2 p' hp,
          Primitive.machineType_of_isPlain hplain]
        exact Word.wrap_ofInt_of_holds hplain hholds
    | succ i => exact denotes_paramRegs hvs has hnodup.2 hty hp

/-- The machine skips the values that stand for parameters. -/
theorem reaches_args {more : List ValueRef} : ∀ {vs : List ValueRef} {fr : Frame},
    fr.func.module = 0 → fr.rest = vs ++ more → (∀ v ∈ vs, (C.module.value v).op = .arg) →
      Reaches C.program C.limit ⟨w, fr :: callers⟩ ⟨w, { fr with rest := more } :: callers⟩
  | [], fr, _, hrest, _ => by
    rw [nil_append] at hrest
    rw [← hrest]
  | v :: vs, fr, hf, hrest, hargs => by
    have hstep : C.program.step C.limit ⟨w, fr :: callers⟩ = _ :=
      step_arg hf hrest (hargs v mem_cons_self)
    have hrest : Reaches C.program C.limit ⟨w, { fr with rest := vs ++ more } :: callers⟩ _ :=
      reaches_args hf rfl fun v hv => hargs v (mem_cons_of_mem _ hv)
    exact .head ⟨hstep, rfl⟩ hrest

theorem Rel.bindParams {params : List ValueRef} {y : Unit} (callers : List Frame) :
    ∀ {vars : List Core.Var} {s : LoweringState} {σ : Store} {w : World} {fr : Frame},
      Rel C A b s (n + vars.length) σ w fr → (∀ v ∈ vars, v.Sound C.setting) →
      (∀ v ∈ vars, Den C (params.getD v.index.toNat 0) (C.setting.type v.id)
        (as.getD v.index.toNat 0) s σ w fr) →
      Runs (Lowering.bindParams params vars) env s y t → C.Takes t →
      ∃ w' fr', Moves C s A.base callers w fr w' fr' ∧
        Rel C A b t n { σ with locals := Core.paramLocals as vars σ.locals } w' fr'
  | [], s, σ, w, fr, h, _, _, hr, hg => by
    obtain ⟨-, rfl⟩ := hr
    exact ⟨w, fr, .refl _ _, h⟩
  | v :: vs, s, σ, w, fr, h, hv, hparams, hr, hg => by
    simp only [Lowering.bindParams, runs_bind] at hr
    obtain ⟨_, u, hr, hrs⟩ := hr
    have hvs : ∀ v ∈ vs, v.Sound C.setting := fun w hw => hv w (mem_cons_of_mem v hw)
    rw [Lowering.bindParam_eq (hv v mem_cons_self)] at hr
    have shape := h.stands.bindValue (hv v mem_cons_self) hr
    have a := shape.adds
    have as' := a.stands.bindParams hvs hrs
    have h' : Rel C A b s (n + vs.length + 1) σ w fr := h
    obtain ⟨w₁, fr₁, m₁, rel₁⟩ := h'.bound callers shape (hv v mem_cons_self).isPlain_type
      (hparams v mem_cons_self) (as'.grows.trans hg)
    obtain ⟨w₂, fr₂, m₂, rel₂⟩ := Rel.bindParams callers rel₁ hvs
      (fun x hx => Lasting.keep (hparams x (mem_cons_of_mem v hx)) (.of_adds a) m₁.kept) hrs hg
    exact ⟨w₂, fr₂, m₁.trans (m₂.since a.grows), rel₂⟩

/-! ## Entering a function -/

theorem rel_start (callers : List Frame) (as : List Int) (held : Nat) (hs : Stands g e e s)
    (hfs : s.functions = C.functions) (hg : C.Takes s)
    (hu : s.module.Unwritten g e)
    (hsteps : w.steps + n + C.module.slotCount e + σ.budget ≤ C.total)
    (hspace : w.memory.segments.size + held + C.module.slotCount e + σ.room < 2 ^ 32) :
    ∃ fr, Reaches C.program C.limit
        ⟨w, Frame.fresh C.module g e (as.map Word.ofInt) :: callers⟩ ⟨w, fr :: callers⟩ ∧
      fr.regs = Program.paramRegs C.module (s.module.func g).params (as.map Word.ofInt) {} ∧
      Rel C ⟨g, e, w.memory.segments.size, held, w.depth⟩ e s n
        { σ with locals := fun _ => none } w fr := by
  obtain ⟨more, hmore, -, -⟩ := hg.code e hs.bound
  have hargs : ∀ v ∈ (s.module.func g).params, (C.module.value v).op = .arg :=
    Module.op_of_isArg (hu.args.imp fun _ _ harg => harg.grows hg)
  rw [hu.code] at hmore
  refine ⟨_, reaches_args rfl hmore hargs, ?_, hs, hu.opened, hfs, hg, rfl, rfl, ?_, ?_, ?_,
    ⟨Nat.le_refl _, rfl, ⟨?_, ?_⟩, ?_⟩, ?_⟩
  · show Program.paramRegs C.module (C.module.func g).params _ {} = _
    rw [(hg.func g hs.known).params]
  · rw [hu.code, hmore, drop_left]
  · unfold pending
    rw [if_pos rfl]
    show w.steps + n + (C.module.slotCount e - s.module.slotCount e) + σ.budget ≤ C.total
    omega
  · unfold pending
    rw [if_pos rfl]
    show w.memory.segments.size + held + (C.module.slotCount e - s.module.slotCount e) + σ.room <
      2 ^ 32
    omega
  · intro v hv hslot
    rw [ready_entry, hu.code] at hv
    rw [Module.not_isIntSlot_of_arg (hargs v hv)] at hslot
    exact absurd hslot Bool.false_ne_true
  · intro v hv v' _ hslot
    rw [ready_entry, hu.code] at hv
    rw [Module.not_isIntSlot_of_arg (hargs v hv)] at hslot
    exact absurd hslot Bool.false_ne_true
  · exact forall_mem_nil _
  · exact fun id a ha => absurd ha (by simp)

/-- What is known about the function of a method in a finished module. -/
structure Callable (C : Context) (m : Core.Method) (g : FuncRef) (e : BlockRef) (p : Primitive) :
    Prop where
  sound : m.Sound C.setting
  built : Lowering.Built C.functions C.module m g e
  params : List.Forall₂ Lowering.Represents (C.module.func g).sig.params
    m.origin.method.paramTypes
  primitive : m.origin.method.result.unnamed.primitive? = some p
  result : (C.module.func g).sig.result = p.machineType

theorem Callable.isDeclaration (h : Callable C m g e p) :
    (C.module.func g).isDeclaration = false :=
  isDeclaration_of_entry h.built.rooted.entry

section

variable (hm : Callable C m g e p) (held : Nat)
  (hbody : ∀ dv, FollowsStmt C depth (Lowering.stmts dv m.body)
    (Core.evalStmts C.methods fuel depth m.body) p 0)
  (hdepth : w.depth + depth = maxDepth) (hfits : List.Forall₂ Fits m.origin.method.paramTypes as)

include hm hbody hdepth hfits

/-- The machine follows a method that has just been entered. -/
theorem Callable.enter
    (hsteps : w.steps + n + m.price + σ.budget ≤ C.total)
    (hspace : w.memory.segments.size + held + m.places + σ.room < 2 ^ 32) :
    After C ⟨w, Frame.fresh C.module g e (as.map Word.ofInt) :: callers⟩ (do
        let r ← Eval.within (Core.paramLocals as m.vars fun _ => none)
          (Core.evalStmts C.methods fuel depth m.body)
        return r.getD 0) σ
      fun a σ' z => Leaving C ⟨g, e, w.memory.segments.size, held, w.depth⟩ callers w.memory n p a σ'
        z ∧ σ'.locals = σ.locals := by
  obtain ⟨hsound, hb, hsig, hp, -⟩ := hm
  obtain ⟨stands, functions, unwritten, runParams, runBody, ends, last, grows, -, slots⟩ := hb
  rename_i env dv s₀ s₁ s₂ t d y₁ y₂
  have a₁ := stands.bindParams hsound.vars runParams
  have hfs := a₁.functions.trans functions
  obtain ⟨d', a₂⟩ := (Lowering.lowers_stmts dv C.complete hsound.body).adds a₁.stands hfs runBody
  have x₃ : Module.Grows s₂.module t.module := by
    rcases last with ⟨-, rfl⟩ | ⟨-, hend⟩
    · exact .refl _
    · exact hend.adds.grows
  have g₂ := x₃.trans grows
  have g₁ := a₂.grows.trans g₂
  have g₀ := a₁.grows.trans g₁
  have params : List.Forall₂ (IsParam C) (s₀.module.func g).params
      m.origin.method.paramTypes := by
    refine isParam_of_isArg (unwritten.args.imp fun _ _ harg => harg.grows g₀) ?_
    rw [← (g₀.func g unwritten.known).sig]
    exact hsig
  have hprice : m.price = m.places + m.vars.length := rfl
  obtain ⟨fr₀, hskip, hregs, rel₀⟩ := rel_start callers as held stands functions g₀ unwritten
    (show w.steps + (n + m.vars.length) + _ + σ.budget ≤ _ by omega) (by omega)
  have hden : ∀ v ∈ m.vars, Den C ((s₀.module.func g).params.getD v.index.toNat 0)
      (C.setting.type v.id) (as.getD v.index.toNat 0) s₀ σ w fr₀ := by
    intro v hv
    obtain ⟨ty, hty, hprim⟩ := hsound.index hv
    have hlt : v.index.toNat < (s₀.module.func g).params.length := by
      rw [params.length_eq]
      exact (List.getElem?_eq_some_iff.mp hty).1
    constructor
    · refine stands.tidy.inside e stands.bound _ ?_
      rw [unwritten.code, getD_eq_getElem?_getD, List.getElem?_eq_getElem hlt]
      exact getElem_mem hlt
    · rw [hregs]
      exact denotes_paramRegs params hfits unwritten.nodup hty hprim
  obtain ⟨w₁, fr₁, m₁, rel₁⟩ := rel₀.bindParams callers hsound.vars hden runParams g₁
  have hrun : After C ⟨w₁, fr₁ :: callers⟩ (Core.evalStmts C.methods fuel depth m.body)
      { σ with locals := Core.paramLocals as m.vars fun _ => none } fun r σ' z =>
        Leaving C ⟨g, e, w.memory.segments.size, held, w.depth⟩ callers w.memory n p (r.getD 0) σ'
          z := by
    let S : Site C depth :=
      ⟨env, ⟨g, e, w.memory.segments.size, held, w.depth⟩, callers, w.memory, hdepth⟩
    have hstage : Stage g e e [] s₁ :=
      ⟨a₁.stands, forall_mem_nil _, by simp⟩
    have hstart : Now S (Since S.act.base s₁ w₁ fr₁) n s₁ _ ⟨w₁, fr₁ :: callers⟩ :=
      ⟨rel₁, m₁.kept.memory, .refl _, .refl ..⟩
    refine (hbody dv S [] _ n hstage hfs hstart runBody g₂).tail fun r σ' z hwent => ?_
    cases hwent with
    | next now =>
      obtain ⟨rel, keeps, -⟩ := now
      obtain rfl := ends.unique rel.stands.current
      rcases last with ⟨hover, -⟩ | ⟨hvoid, hend⟩
      · exact absurd (hover.symm.trans rel.opened) (by simp)
      · obtain ⟨z, hz, hl⟩ := rel.leave callers hend grows
          (.nothing (Option.some.inj (hp.symm.trans hvoid)) rfl)
        exact ⟨z, hz, hl.since keeps⟩
    | leave leaving => exact ⟨z, .refl, leaving⟩
  have hwithin : After C ⟨w₁, fr₁ :: callers⟩ (Eval.within (Core.paramLocals as m.vars fun _ => none)
      (Core.evalStmts C.methods fuel depth m.body)) σ fun r σ' z =>
        Leaving C ⟨g, e, w.memory.segments.size, held, w.depth⟩ callers w.memory n p (r.getD 0) σ'
          z ∧ σ'.locals = σ.locals := by
    refine hrun.within fun r σ' z hl => ?_
    obtain ⟨returns, holds, steps, space, depth, objects, keeps⟩ := hl
    exact ⟨⟨returns, holds, steps, space, depth, objects, keeps⟩, rfl⟩
  exact After.head (hskip.trans m₁.reaches) (hwithin.bind fun r σ' z h => After.pure h)

/-- The machine follows a call from the start of its function on. -/
theorem Callable.follows
    (hsteps : w.steps + n + σ.budget ≤ C.total)
    (hspace : w.memory.segments.size + held + σ.room < 2 ^ 32) :
    After C ⟨w, Frame.fresh C.module g e (as.map Word.ofInt) :: callers⟩
      (Core.evalCall C.methods (fuel + 1) (depth + 1) m as) σ
      fun a σ' z => Leaving C ⟨g, e, w.memory.segments.size, held, w.depth⟩ callers w.memory n p a σ'
        z ∧ σ'.locals = σ.locals := by
  rw [Core.evalCall]
  refine After.bind (After.spend
    (Q := fun _ σ' z => m.price ≤ σ.budget ∧ σ' = { σ with budget := σ.budget - m.price } ∧
      z = ⟨w, Frame.fresh C.module g e (as.map Word.ofInt) :: callers⟩) fun h => ⟨h, rfl, rfl⟩) ?_
  rintro _ _ _ ⟨hprice, rfl, rfl⟩
  refine After.bind (After.occupy (Q := fun _ σ' z => m.places ≤ σ.room ∧
      σ' = { σ with budget := σ.budget - m.price, room := σ.room - m.places } ∧
      z = ⟨w, Frame.fresh C.module g e (as.map Word.ofInt) :: callers⟩) fun h => ⟨h, rfl, rfl⟩) ?_
  rintro _ _ _ ⟨hplaces, rfl, rfl⟩
  have hrun : After C ⟨w, Frame.fresh C.module g e (as.map Word.ofInt) :: callers⟩ _
      { σ with budget := σ.budget - m.price, room := σ.room - m.places } _ :=
    hm.enter (n := n) held hbody hdepth hfits
      (show w.steps + n + m.price + (σ.budget - m.price) ≤ C.total by omega)
      (show w.memory.segments.size + held + m.places + (σ.room - m.places) < 2 ^ 32 by omega)
  exact hrun

end

/-! ## Returning to the caller -/

/-- The release of the objects of a frame leaves all others alone. -/
theorem keeps_release {base : Nat} : ∀ {as : List Word} {μ : Memory},
    (∀ a ∈ as, ∃ k, base ≤ k ∧ k + 1 < 2 ^ 32 ∧ a = Memory.startOf (k + 1)) →
      Memory.Keeps base μ (as.foldl Memory.release μ) ∧
      (as.foldl Memory.release μ).segments.size = μ.segments.size
  | [], μ, _ => ⟨.refl _ _, rfl⟩
  | a :: as, μ, h => by
    obtain ⟨k, hk, hlt, rfl⟩ := h a mem_cons_self
    obtain ⟨hkeeps, hsize⟩ := keeps_release (μ := μ.release (Memory.startOf (k + 1)))
      fun a ha => h a (mem_cons_of_mem _ ha)
    refine ⟨(Memory.Keeps.release hk hlt).trans hkeeps, hsize.trans ?_⟩
    rw [Memory.release_of_segmentOf (Memory.segmentOf_startOf hlt)]
    exact Array.size_modify ..

/-- The machine returns to a frame that waits for its call. -/
theorem Rel.returned {z : Value} {state : State} {g' : FuncRef} (h : Rel C A b s (n + 1) σ w fr)
    (g : Emitted A.func A.entry b s z r t) (hg : C.Takes t) (hop : z.op = .call)
    (hty : z.type = p.machineType) (hlocals : σ'.locals = σ.locals)
    (hl : Leaving C ⟨g', e, w.memory.segments.size, A.held + pending C A b s, w.depth + 1⟩
      (fr :: callers) w.memory (n + pending C A b s) p i σ' state) :
    ∃ w' fr', Reaches C.program C.limit state ⟨w', fr' :: callers⟩ ∧ Rel C A b t n σ' w' fr' ∧
      Denotes C fr'.regs r p i ∧ Kept s A.base w fr w' fr' := by
  obtain ⟨returns, holds, steps, space, depth, objects, keeps⟩ := hl
  rename_i w₁ fr₁
  obtain ⟨hrest, hlike⟩ := h.next g hg
  have hstep : C.program.step C.limit ⟨w₁, fr₁ :: fr :: callers⟩ = _ := returns.step hrest
  have hspace : w₁.memory.segments.size + A.held + pending C A b s + σ'.room < 2 ^ 32 := by
    have : w₁.memory.segments.size + (A.held + pending C A b s) + σ'.room < 2 ^ 32 := space
    omega
  obtain ⟨hrel, hsize⟩ := keeps_release (μ := w₁.memory) fun a ha => by
    obtain ⟨k, hk, hlt, hak⟩ := objects a ha
    exact ⟨k, hk, by omega, hak⟩
  have hkeeps := keeps.trans hrel
  have hregs : ∀ v, v ≠ r → (fr.regs.insert r (Word.ofInt i)).getD v 0 = fr.regs.getD v 0 :=
    fun v hv => getD_insert_of_ne hv
  have hold : ∀ v < s.module.values.size,
      (fr.regs.insert r (Word.ofInt i)).getD v 0 = fr.regs.getD v 0 :=
    fun v hv => hregs v (g.ref ▸ Nat.ne_of_lt hv)
  have hrel' : Rel C A b t n σ' (w₁.without fr₁)
      (Rel.behind C b t fr (fr.regs.insert r (Word.ofInt i))) := by
    refine h.resume g hg (by rw [hop]; simp) ?_ ?_ hkeeps.size ?_ ?_ hregs ?_
    · show w₁.steps + n + pending C A b s + σ'.budget ≤ C.total
      omega
    · show (fr₁.slots.foldl Memory.release w₁.memory).segments.size + _ + _ + _ < _
      rw [hsize]
      exact hspace
    · show w₁.depth - 1 = w.depth
      rw [depth]
      rfl
    · exact fun k bits hk => hkeeps.isCell hk.lt_size hk
    · rw [hlocals]
      exact h.vars_extends (.of_adds g.adds) hold fun k hk bits => hkeeps.content hk
  refine ⟨_, _, .single ⟨hstep, rfl⟩, hrel', ⟨InRegister.reads ?_ (getD_insert_self ..), holds, ?_⟩,
    hold, hkeeps.mono h.sits.room⟩
  · unfold InRegister
    rw [hlike.op, hop]
    decide
  · exact hlike.type.trans hty

/-! ## Calls -/

theorem sim_call {S : Site C depth} {P : List BlockRef} {F : Condition} [Stable S.act.base F] {f : MethodFunc} {vs : List ValueRef}
    (hf : f ∈ C.functions) (hm : Callable C m f.func e p)
    (hargs : F.Entails (Args C vs m.origin.method.paramTypes as))
    (hbody : ∀ depth dv, FollowsStmt C depth (Lowering.stmts dv m.body)
      (Core.evalStmts C.methods fuel depth m.body) p 0) :
    Sim S P (Now S F (n + 1)) (Lowering.build (.call f.func vs))
      (Core.evalCall C.methods (fuel + 1) depth m as) fun r a => Now S (F.and (Den C r p a)) n :=
  .of_rel id fun {b s σ w fr r t} rel holds hr hg => by
  obtain ⟨hreads, hfits⟩ := hargs holds
  have hreads : List.Forall₂ (Reads C.module fr.regs) vs (as.map Word.ofInt) :=
    forall₂_map_right_iff.mpr (hreads.imp fun _ _ h => h.2)
  have hcall := rel.stands.emitted (Lowering.runs_call.mp hr) (by simp) (by simp)
  have hty : (s.module.func f.func).sig.result = p.machineType := by
    rw [← (rel.grows.func f.func (rel.stands.callable f (rel.functions ▸ hf))).sig]
    exact hm.result
  obtain ⟨hrest, hlike⟩ := rel.next hcall hg
  have hlength : (as.map Word.ofInt).length = (C.module.func f.func).sig.params.length := by
    rw [length_map, hm.params.length_eq, hfits.length_eq]
  have hstep : C.program.step C.limit ⟨w, fr :: S.callers⟩ = _ :=
    step_call rel.module_eq hrest hlike rel.le_limit hreads hm.isDeclaration hlength
  cases depth with
  | zero =>
    -- there is no room for a further function
    obtain ⟨fn, blk, hfull⟩ : ∃ fn blk, C.program.start w.tick (fr :: S.callers) ⟨0, f.func⟩
        (as.map Word.ofInt) =
          .stopped (.runtime fn blk "stack overflow") ⟨w.tick, fr :: S.callers⟩ :=
      start_of_full (rel.sits.depth.trans S.deep)
    have hstop : Stops C ⟨w, fr :: S.callers⟩ .stackOverflow :=
      ⟨_, _, _, .refl, hstep.trans hfull, rfl, fn, blk, rfl⟩
    rw [Core.evalCall]
    exact After.stopped hstop
  | succ depth =>
    have hdeep : w.depth + (depth + 1) = maxDepth := rel.sits.depth ▸ S.deep
    have hroom : C.program.start w.tick (fr :: S.callers) ⟨0, f.func⟩ (as.map Word.ofInt) = _ :=
      start_of_room C.noPhi hm.built.rooted.entry (show w.depth + 1 ≤ maxDepth by omega)
    have hsteps := rel.steps
    have hspace := rel.space
    have hrun : After C
        ⟨w.tick.entered, Frame.fresh C.module f.func e (as.map Word.ofInt) :: fr :: S.callers⟩
        (Core.evalCall C.methods (fuel + 1) (depth + 1) m as) σ _ :=
      hm.follows (n := n + pending C S.act b s) (S.act.held + pending C S.act b s)
        (hbody depth) (show w.depth + 1 + depth = maxDepth by omega) hfits
        (show w.steps + 1 + (n + pending C S.act b s) + σ.budget ≤ C.total by omega)
        (show w.memory.segments.size + (S.act.held + pending C S.act b s) + σ.room < 2 ^ 32 by omega)
    refine After.head (.single ⟨hstep.trans hroom, rfl⟩) (hrun.tail ?_)
    rintro a σ' z ⟨hl, hlocals⟩
    obtain ⟨w', fr', hreach, rel', den, kept⟩ := rel.returned hcall hg rfl hty hlocals hl
    exact ⟨_, hreach, rel', kept, fun id hid => hlocals ▸ hid, hcall.lt, den⟩

end SsaCompiler.Simulation
