import SsaCompiler.Proofs.Lowering.Staged
import SsaCompiler.Proofs.Ssa.Definition

/-!
# Functions of methods

A method gets a function under a name of its own, whose type is that of the method, and later its body
is lowered into the function, from the entry block on. Other functions are left alone in both steps.
-/

namespace SsaCompiler.Lowering

open Ssa (BlockRef FuncRef Module)
open Core (Setting)

variable {env : Env} {s t u : LoweringState} {f g : FuncRef} {e d : BlockRef} {M M' : Module}
  {st : Setting} {dv : Defaults} {m : Core.Method} {fs : List MethodFunc}

/-! ## Types of functions -/

/-- A machine type is that of a primitive type. -/
def Represents (t : Ssa.Ty) (ty : Ty) : Prop :=
  ∀ p, ty.primitive? = some p → t = p.machineType

theorem forall₂_of_mapM {α β ε : Type} {k : α → Except ε β} {R : β → α → Prop}
    (hk : ∀ x y, k x = .ok y → R y x) : ∀ {xs : List α} {ys : List β}, xs.mapM k = .ok ys →
      List.Forall₂ R ys xs
  | [], ys, h => by
    cases h
    exact .nil
  | x :: xs, ys, h => by
    rw [List.mapM_cons] at h
    cases hx : k x with
    | error err => rw [hx] at h; cases h
    | ok y =>
      cases hxs : xs.mapM k with
      | error err => rw [hx, hxs] at h; cases h
      | ok zs =>
        rw [hx, hxs] at h
        cases h
        exact .cons (hk x y hx) (forall₂_of_mapM hk hxs)

/-- The function of a method of the unit takes and gives words of the types of the method. -/
theorem represents_signature {m : Method} {sig : Ssa.Ty} (h : signature env .own m = .ok sig) :
    List.Forall₂ Represents sig.params m.paramTypes ∧ Represents sig.result m.result.unnamed := by
  have htype : ∀ ty mt, env.machineType (env.typeFrom .own ty) = .ok mt → Represents mt ty := by
    intro ty mt hmt p hp
    have := (Ty.machineType_of_primitive? env hp).symm.trans hmt
    cases this
    rfl
  unfold signature at h
  cases hps : m.paramTypes.mapM fun t => env.machineType (env.typeFrom .own t) with
  | error err => rw [hps] at h; cases h
  | ok ps =>
    rw [hps] at h
    have hparams := forall₂_of_mapM htype hps
    by_cases hvoid : m.result.unnamed.isVoid
    · simp only [hvoid] at h
      cases h
      refine ⟨hparams, fun p hp => ?_⟩
      have hv : m.result.unnamed.primitive? = some .void := by simpa [Ty.isVoid] using hvoid
      cases hp.symm.trans hv
      rfl
    · simp only [hvoid] at h
      cases hr : env.machineType (env.typeFrom .own m.result.unnamed) with
      | error err => rw [hr] at h; cases h
      | ok r =>
        rw [hr] at h
        cases h
        exact ⟨hparams, htype _ _ hr⟩

/-- The function of a method has the type of the method, and a name of its own. -/
structure Signed (M : Module) (d : MethodFunc) : Prop where
  known : d.func < M.funcs.size
  isDefined : d.isDefined
  params : List.Forall₂ Represents (M.func d.func).sig.params d.method.method.paramTypes
  result : Represents (M.func d.func).sig.result d.method.method.result.unnamed
  first : ∀ f < d.func, (M.func f).name ≠ (M.func d.func).name

theorem Signed.grows {d : MethodFunc} (h : Signed M d) (hg : Module.Grows M M') : Signed M' d := by
  have hlike := hg.func d.func h.known
  refine ⟨Nat.lt_of_lt_of_le h.known hg.funcs, h.isDefined, hlike.sig ▸ h.params,
    hlike.sig ▸ h.result, fun f hf => ?_⟩
  rw [(hg.func f (Nat.lt_trans hf h.known)).name, hlike.name]
  exact h.first f hf

theorem Signed.find? {d : MethodFunc} (h : Signed M d) :
    M.find? (M.func d.func).name = some d.func := by
  have hget : ∀ f (hf : f < M.funcs.size), M.func f = M.funcs[f] := fun f hf => by
    unfold Module.func
    rw [Array.getD_eq_getD_getElem?, Array.getElem?_eq_getElem hf]
    rfl
  unfold Module.find?
  rw [Array.findIdx?_eq_some_iff_getElem]
  refine ⟨h.known, by rw [hget d.func h.known]; exact beq_self_eq_true _, fun f hf => ?_⟩
  have := h.first f hf
  rw [hget f (Nat.lt_trans hf h.known)] at this
  simpa using this

/-! ## Between methods -/

/-- Lowering stands between two methods: the functions of methods are there, and every variable that is
bound has a slot of its own. -/
structure Between (s : LoweringState) : Prop where
  tidy : s.module.Tidy
  signed : ∀ d ∈ s.functions, Signed s.module d
  stored : ∀ id x, s.storage.lookup id = some x → x.direct = false ∧ s.module.isIntSlot x.addr
  apart : ∀ id id' x x', s.storage.lookup id = some x → s.storage.lookup id' = some x' →
    x.addr = x'.addr → id = id'

/-- Lowering goes to the entry block of a function that has no code yet. -/
theorem Between.stands (h : Between s) (hu : s.module.Unwritten f e) :
    Stands f e e (s.standingAt e) :=
  ⟨rfl, hu.bound, hu.home, hu.known, hu.entry, hu.bound, hu.home, h.tidy,
    fun d hd => (h.signed d hd).known, h.stored, h.apart⟩

theorem run_defineFunction {name : String} {sig : Ssa.Ty} {names : List String}
    {x y : Ssa.Builder} (h : (Ssa.Build.defineFunction name sig names).run x = .ok (g, y)) :
    ∃ M, x.module.defineFunction? name sig names = some (g, M) ∧ y = { x with module := M } := by
  simp only [Ssa.Build.defineFunction, run_bind_ok, run_module] at h
  obtain ⟨m, z, ⟨hm, hz⟩, h⟩ := h
  rw [hm, hz] at h
  cases hdef : x.module.defineFunction? name sig names with
  | none => rw [hdef] at h; cases h
  | some r =>
    rw [hdef] at h
    cases h
    exact ⟨_, rfl, rfl⟩

/-- A new method gets a function without code. -/
structure Given (env : Env) (s : LoweringState) (key : String) (m : MethodDef) (g : FuncRef)
    (t : LoweringState) : Prop where
  between : Between t
  bodies : ∀ f < t.module.funcs.size, (t.module.func f).entry.isSome
  grows : Module.Grows s.module t.module
  functions : t.functions = s.functions ++ [⟨m, g, true⟩]
  fresh : g = s.module.funcs.size
  named : (t.module.func g).name = env.own.linkName key m
  unwritten : ∃ e, t.module.Unwritten g e
  others : ∀ f e, s.module.Unwritten f e → t.module.Unwritten f e

section

variable {key : String} {m : MethodDef} (hm : s.functions.find? (fun d => d.method.same m) = none)
  (hext : Typing.isExternal m.method = false) (hr : Runs (function .own key m) env s g t)

include hm hext hr

theorem runs_function_new :
    ∃ sig M, signature env .own m.method = .ok sig ∧
      s.module.defineFunction? (env.own.linkName key m) sig (paramNames 0 m.method.params) =
        some (g, M) ∧
      t = { s.withModule M with functions := s.functions ++ [⟨m, g, true⟩] } := by
  simp only [function, runs_bind, runs_get] at hr
  obtain ⟨w, u, ⟨hw, hu⟩, hr⟩ := hr
  rw [hw, hu, hm] at hr
  simp only [runs_bind, runs_read, runs_lift, hext, Bool.false_eq_true, if_false, beq_self_eq_true,
    if_true, runs_pure, runs_modify, runs_build] at hr
  obtain ⟨env', _, ⟨henv, rfl⟩, sig, _, ⟨hsig, rfl⟩, i, _, ⟨B, hB, rfl⟩, _, _, ⟨rfl, rfl⟩, _, _, rfl,
    rfl, rfl⟩ := hr
  rw [henv] at hB
  obtain ⟨M, hM, rfl⟩ := run_defineFunction hB
  exact ⟨sig, M, hsig, hM, rfl⟩

theorem Between.function (h : Between s)
    (hbodies : ∀ f < s.module.funcs.size, (s.module.func f).entry.isSome) :
    Given env s key m g t := by
  obtain ⟨sig, M, hsig, hM, rfl⟩ := runs_function_new hm hext hr
  obtain ⟨hnew, rfl, vs, hfill⟩ := Module.filling_defineFunction? hbodies hM
  have hg : Module.Grows s.module M := hfill.grows
  have hunwritten := hfill.unwritten rfl
  obtain ⟨hparams, hresult⟩ := represents_signature hsig
  have hsigned : Signed M ⟨m, s.module.funcs.size, true⟩ := by
    refine ⟨hunwritten.known, rfl, ?_, ?_, fun f hf => ?_⟩
    · exact hfill.added.sig ▸ hparams
    · exact hfill.added.sig ▸ hresult
    · rw [hfill.added.name, (hfill.func f hf).name]
      exact Module.find?_eq_none.mp hnew f hf
  refine ⟨⟨hfill.tidy h.tidy, fun d hd => ?_, fun id x hx => ?_, h.apart⟩, fun f hf => ?_, hg, rfl,
    rfl, hfill.added.name, ⟨_, hunwritten⟩, fun f e hu => hu.grows hg ?_⟩
  · rcases List.mem_append.mp hd with hd | hd
    · exact (h.signed d hd).grows hg
    · rw [List.mem_singleton.mp hd]
      exact hsigned
  · exact ⟨(h.stored id x hx).1, hg.isIntSlot (h.stored id x hx).2⟩
  · rcases Nat.lt_or_ge f s.module.funcs.size with hlt | hge
    · exact (hfill.func f hlt).entry ▸ hbodies f hlt
    · obtain rfl : f = s.module.funcs.size := by
        have hf : f < M.funcs.size := hf
        rw [hfill.funcs] at hf
        omega
      exact hfill.added.entry ▸ rfl
  · show (M.block e).Like _
    rw [hfill.block e hu.bound]
    exact .refl _

end

/-! ## Bodies -/

/-- The states that the lowering of a method goes through: it starts in an entry block that holds the
parameters and nothing else; then slots for them, the statements, and a return if the end can be
reached. -/
inductive Built (fs : List MethodFunc) (M : Module) (m : Core.Method) (g : FuncRef) (e : BlockRef) :
    Prop where
  | intro {env : Env} {dv : Defaults} {s₀ s₁ s₂ t : LoweringState} {d : BlockRef} {y₁ y₂ : Unit}
      (stands : Stands g e e s₀) (functions : s₀.functions = fs) (unwritten : s₀.module.Unwritten g e)
      (runParams : Runs (bindParams (s₀.module.func g).params m.vars) env s₀ y₁ s₁)
      (runBody : Runs (stmts dv m.body) env s₁ y₂ s₂) (ends : Stands g e d s₂)
      (last : ((s₂.module.block d).isTerminated ∧ t = s₂) ∨
        m.origin.method.result.unnamed.primitive? = some .void ∧ Ended g e d s₂ .ret [] [] t)
      (grows : Module.Grows t.module M) (rooted : M.Rooted g e) (slots : M.slotCount e ≤ m.places)

theorem Built.rooted (h : Built fs M m g e) : M.Rooted g e := by
  obtain ⟨-, -, -, -, -, -, -, -, rooted, -⟩ := h
  exact rooted

/-- What has been built stays as long as the entry block does. -/
theorem Built.grows (h : Built fs M m g e) (hg : Module.Grows M M') (ht : M.Tidy)
    (he : (M'.block e).Like (M.block e)) : Built fs M' m g e := by
  obtain ⟨stands, functions, unwritten, runParams, runBody, ends, last, grows, rooted, slots⟩ := h
  refine ⟨stands, functions, unwritten, runParams, runBody, ends, last, grows.trans hg,
    rooted.grows hg, ?_⟩
  rw [Module.slotCount_congr he.values fun v hv => hg.value v (ht.inside e rooted.bound v hv)]
  exact slots

/-- The body of a method has been lowered into its function. -/
structure Filled (s : LoweringState) (m : Core.Method) (g : FuncRef) (e : BlockRef)
    (t : LoweringState) : Prop where
  between : Between t
  grows : Module.Grows s.module t.module
  functions : t.functions = s.functions
  built : Built s.functions t.module m g e
  others : ∀ c < s.module.blocks.size, c ≠ e → (t.module.block c).Like (s.module.block c)

theorem Between.method {d : MethodFunc} {y : Unit} (h : Between s) (hfs : Complete st s.functions)
    (hm : m.Sound st) (hd : s.functions.find? (fun d => d.method.same m.origin) = some d)
    (hu : s.module.Unwritten d.func e) (hr : Runs (Lowering.method dv m) env s y t) :
    Filled s m d.func e t := by
  have hdefined := (h.signed d (List.mem_of_find?_eq_some hd)).isDefined
  have hstands := h.stands hu
  simp only [Lowering.method, runs_bind, runs_get] at hr
  obtain ⟨w, z, ⟨hw, hz⟩, hr⟩ := hr
  rw [hw, hz, hd] at hr
  simp only [hdefined, if_true, runs_bind, runs_module] at hr
  obtain ⟨M, z, ⟨hM, hz⟩, _, s₀, hs₀, y₁, s₁, hparams, y₂, s₂, hbody, x, z', hx, hr⟩ := hr
  rw [hM, hz, hu.entry] at hs₀
  rw [hM] at hparams
  obtain rfl := runs_setInsertPoint.mp hs₀
  have a₁ := hstands.bindParams hm.vars hparams
  obtain ⟨c, a₂⟩ := (lowers_stmts dv hfs hm.body).adds a₁.stands a₁.functions hbody
  obtain ⟨rfl, hz'⟩ := a₂.stands.isTerminated hx
  rw [hz'] at hr
  -- the end of the body is either out of reach or a return without a value
  have hlast : Adds d.func e c s₂ c t 0 ∧ (((s₂.module.block c).isTerminated ∧ t = s₂) ∨
      m.origin.method.result.unnamed.primitive? = some .void ∧
        Ended d.func e c s₂ .ret [] [] t) := by
    split at hr
    next =>
      split at hr
      next => simp at hr
      next hvoid =>
        have hend := a₂.stands.ended ending_retVoid hr
        exact ⟨hend.adds, .inr ⟨by simpa [Ty.isVoid] using hvoid, hend⟩⟩
    next hover =>
      obtain ⟨-, rfl⟩ := runs_pure.mp hr
      exact ⟨.refl a₂.stands, .inl ⟨by simpa using hover, rfl⟩⟩
  obtain ⟨a₃, hlast⟩ := hlast
  have a := (a₁.trans a₂).trans a₃
  have hg : Module.Grows s.module t.module := a.grows
  refine ⟨⟨a.stands.tidy, fun f hf => ?_, a.stands.stored, a.stands.apart⟩, hg, a.functions,
    ⟨hstands, rfl, hu, hparams, hbody, a₂.stands, hlast, .refl _, hu.toRooted.grows hg, ?_⟩,
    fun c hc hne => a.others c hc hne hne⟩
  · have hf : f ∈ s.functions := a.functions ▸ hf
    exact (h.signed f hf).grows hg
  · have hslots : t.module.slotCount e ≤ s.module.slotCount e + _ := a.slots
    rw [hu.slotCount_eq] at hslots
    exact Nat.le_trans hslots (Nat.le_of_eq (by rw [Core.Method.places]; omega))

end SsaCompiler.Lowering
