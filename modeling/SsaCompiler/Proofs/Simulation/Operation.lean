import SsaCompiler.Proofs.Simulation.After

/-!
# Operations on integers

Conversions, arithmetic and comparisons: what the machine computes is the word of what the evaluator
computes. A division by zero stops the machine.
-/

namespace SsaCompiler.Simulation

open Primitive Machine.Word
open Ssa (ValueRef BlockRef Value)
open Core (Store)
open Lowering (Emitted)
open Machine

variable {C : Context} {A : Act} {b : BlockRef} {s t u : LoweringState} {n : Nat} {σ : Store}
  {w w' : World} {fr fr' : Frame} {callers : List Frame} {env : Env} {r v x y : ValueRef} {z : Value}
  {p q : Primitive} {i j : Int} {ty : Ssa.Ty}

theorem typeOf_emitted (g : Emitted A.func A.entry b s z r t) (hg : C.Takes t) :
    C.module.typeOf r = z.type :=
  ((hg.value r g.lt).trans g.new).type

theorem Rel.typeOf (h : Rel C A b s n σ w fr) (hv : v < s.module.values.size) :
    C.module.typeOf v = s.module.typeOf v :=
  (h.grows.value v hv).type

section

variable {vs : List ValueRef} {xs : List Word} (h : Rel C A b s (n + 1) σ w fr)
  (g : Emitted A.func A.entry b s z r t) (hg : C.Takes t) (hargs : z.args = vs.map some)
  (hreads : List.Forall₂ (Reads C.module fr.regs) vs xs)

include h g hg hargs hreads

/-- The machine computes a value from others. -/
theorem Rel.computed {o : Word} (hop : Rel.isValue z.op && isComputed z.op)
    (hc : compute z ((vs.head?.map C.module.typeOf).getD .void) xs = .ok o) :
    ∃ fr', Moves C s A.base callers w fr w.tick fr' ∧ Rel C A b t n σ w.tick fr' ∧
      Reads C.module fr'.regs r o := by
  rw [Bool.and_eq_true] at hop
  refine h.value g hg hop.1 ?_
  rw [exec_computed hop.2 hargs hreads, hc]

/-- The machine stops at a value that cannot be computed. -/
theorem Rel.fault {why : Fault} (callers : List Frame) (hop : isSimple z.op && isComputed z.op)
    (hc : compute z ((vs.head?.map C.module.typeOf).getD .void) xs = .error why)
    (hwhy : why.isFatal = false) :
    ∃ func block what u, C.program.step C.limit ⟨w, fr :: callers⟩ =
      .stopped (.runtime func block (what ++ ": " ++ why.message)) u ∧
      u.world.output = w.output := by
  rw [Bool.and_eq_true] at hop
  obtain ⟨hrest, hlike⟩ := h.next g hg
  have hstep : C.program.step C.limit ⟨w, fr :: callers⟩ = _ :=
    step_simple h.module_eq hrest hlike hop.1 h.le_limit
  rw [exec_computed hop.2 hargs hreads, hc] at hstep
  dsimp only at hstep
  unfold Program.opFault Fault.stop at hstep
  rw [hwhy] at hstep
  exact ⟨_, _, _, _, hstep, rfl⟩

end

section

variable (h : Rel C A b s (n + 1) σ w fr)

include h

theorem Rel.compare (op : BinaryOp) (hp : p.isPlain)
    (hx : Denotes C fr.regs x p i) (hy : Denotes C fr.regs y p j)
    (g : Emitted A.func A.entry b s { op := .icmp, type := .int 1, args := [some x, some y],
                                      auxInt := (Lowering.intPredicate op).code } r t)
    (hg : C.Takes t) :
    ∃ fr', Moves C s A.base callers w fr w.tick fr' ∧ Rel C A b t n σ w.tick fr' ∧
      Denotes C fr'.regs r .bool (Core.ofBool (Core.compared op i j)) := by
  have hcode : Ssa.IntPredicate.ofCode? (Lowering.intPredicate op).code =
      some (Lowering.intPredicate op) := by
    cases op <;> rfl
  obtain ⟨fr', hm, hrel, hreads⟩ := h.computed g hg (show _ = [x, y].map some from rfl)
    (.cons hx.reads (.cons hy.reads .nil)) (by rfl) (show compute _ _ _ = .ok _ from rfl)
  refine ⟨fr', hm, hrel, ?_, holds_ofBool _, typeOf_emitted g hg⟩
  have : Word.ofBool ((Ssa.IntPredicate.ofCode? (Lowering.intPredicate op).code).any fun p =>
      compareInt p (Word.ofInt i) (Word.ofInt j)) = Word.ofInt (Core.ofBool (Core.compared op i j)) := by
    rw [hcode, Option.any_some, compareInt_ofInt op hp hx.holds hy.holds, ofBool_eq]
  rw [← this]
  exact hreads

theorem Rel.neg (hp : p.isPlain) (hb : p ≠ .bool) (hx : Denotes C fr.regs x p i)
    (g : Emitted A.func A.entry b s { op := .neg, type := ty, args := [some x] } r t)
    (hg : C.Takes t) (hty : ty = p.machineType) :
    ∃ fr', Moves C s A.base callers w fr w.tick fr' ∧ Rel C A b t n σ w.tick fr' ∧
      Denotes C fr'.regs r p (p.reduce (-i)) := by
  rw [machineType_of_isPlain hp] at hty
  subst hty
  obtain ⟨fr', hm, hrel, hreads⟩ := h.computed g hg (show _ = [x].map some from rfl)
    (.cons hx.reads .nil) (by rfl) (show compute _ _ _ = .ok _ from rfl)
  refine ⟨fr', hm, hrel, ?_, holds_reduce hp hb _, ?_⟩
  · rw [← wrap_ofInt hp hb, ofInt_neg]
    exact hreads
  · rw [machineType_of_isPlain hp]
    exact typeOf_emitted g hg

theorem Rel.not (hx : Denotes C fr.regs x .bool i)
    (g : Emitted A.func A.entry b s { op := .not, type := ty, args := [some x] } r t)
    (hg : C.Takes t) (hty : ty = .int 1) :
    ∃ fr', Moves C s A.base callers w fr w.tick fr' ∧ Rel C A b t n σ w.tick fr' ∧
      Denotes C fr'.regs r .bool (Core.ofBool (i == 0)) := by
  subst hty
  obtain ⟨fr', hm, hrel, hreads⟩ := h.computed g hg (show _ = [x].map some from rfl)
    (.cons hx.reads .nil) (by rfl) (show compute _ _ _ = .ok _ from rfl)
  refine ⟨fr', hm, hrel, ?_, holds_ofBool _, typeOf_emitted g hg⟩
  rw [← not_ofInt hx.holds]
  exact hreads

theorem Rel.arith {op : BinaryOp} (hop : Core.isArithmetic op) (hp : p.isPlain) (hb : p ≠ .bool)
    (hx : Denotes C fr.regs x p i) (hy : Denotes C fr.regs y p j)
    (g : Emitted A.func A.entry b s
      { op := Lowering.intOp op, type := ty, args := [some x, some y] } r t)
    (hg : C.Takes t) (hty : ty = p.machineType) :
    After C ⟨w, fr :: callers⟩ (Core.Eval.arith op p i j) σ fun a σ' z => ∃ fr', σ' = σ ∧
      z = ⟨w.tick, fr' :: callers⟩ ∧ Kept s A.base w fr w.tick fr' ∧ Rel C A b t n σ w.tick fr' ∧
      Denotes C fr'.regs r p a := by
  rw [machineType_of_isPlain hp] at hty
  subst hty
  have hreads : List.Forall₂ (Reads C.module fr.regs) [x, y] [Word.ofInt i, Word.ofInt j] :=
    .cons hx.reads (.cons hy.reads .nil)
  have htype : C.module.typeOf r = p.machineType := by
    rw [machineType_of_isPlain hp]
    exact typeOf_emitted g hg
  -- all operations cut their result to the width of the type
  have done : ∀ {o : Ssa.Op} {a : Int} {x' : Word}, Lowering.intOp op = o →
      Rel.isValue o && isComputed o →
      compute { op := o, type := .int p.bits, args := [some x, some y] }
        (([x, y].head?.map C.module.typeOf).getD .void) [Word.ofInt i, Word.ofInt j] =
        .ok (x'.wrap p.bits) → x' = Word.ofInt a →
      After C ⟨w, fr :: callers⟩ (Pure.pure (p.reduce a)) σ fun a σ' z => ∃ fr', σ' = σ ∧
        z = ⟨w.tick, fr' :: callers⟩ ∧ Kept s A.base w fr w.tick fr' ∧
        Rel C A b t n σ w.tick fr' ∧ Denotes C fr'.regs r p a := by
    intro o a x' ho hval hc hx'
    subst ho
    obtain ⟨fr', hm, hrel, hr⟩ := h.computed g hg (show _ = [x, y].map some from rfl) hreads hval hc
    refine After.head hm.reaches (After.pure ⟨fr', rfl, rfl, hm.kept, hrel, ?_,
      holds_reduce hp hb a, htype⟩)
    rw [← wrap_ofInt hp hb, ← hx']
    exact hr
  have stop : ∀ {o : Ssa.Op}, Lowering.intOp op = o → isSimple o && isComputed o →
      compute { op := o, type := .int p.bits, args := [some x, some y] }
        (([x, y].head?.map C.module.typeOf).getD .void) [Word.ofInt i, Word.ofInt j] =
        .error .divideByZero →
      Stops C ⟨w, fr :: callers⟩ .divideByZero := by
    intro o ho hval hc
    subst ho
    obtain ⟨func, block, what, u, hstep, hout⟩ := h.fault g hg
      (show _ = [x, y].map some from rfl) hreads callers hval hc rfl
    exact ⟨_, _, u, .refl, hstep, hout, func, block, what, rfl⟩
  have hzero := ofInt_eq_zero hp hy.holds
  cases op with
  | add => exact done rfl (by rfl) rfl (UInt64.ofInt_add i j).symm
  | sub => exact done rfl (by rfl) rfl (ofInt_sub i j).symm
  | mul => exact done rfl (by rfl) rfl (UInt64.ofInt_mul i j).symm
  | div =>
    show After C _ (if j = 0 then throw .divideByZero else Pure.pure (p.reduce (i.tdiv j))) σ _
    by_cases hj : j = 0
    · rw [if_pos hj]
      refine After.stopped (stop rfl (by rfl) ?_)
      exact if_pos (by simpa using hzero.mpr hj)
    · rw [if_neg hj]
      refine done rfl (by rfl) ?_ (quotient_ofInt hp hx.holds hy.holds)
      exact if_neg (by simpa using hzero.not.mpr hj)
  | mod =>
    show After C _ (if j = 0 then throw .divideByZero else Pure.pure (p.reduce (i.tmod j))) σ _
    by_cases hj : j = 0
    · rw [if_pos hj]
      refine After.stopped (stop rfl (by rfl) ?_)
      exact if_pos (by simpa using hzero.mpr hj)
    · rw [if_neg hj]
      refine done rfl (by rfl) ?_ (remainder_ofInt hp hx.holds hy.holds)
      exact if_neg (by simpa using hzero.not.mpr hj)
  | _ => exact absurd hop (by decide)

/-! ## Conversions -/

/-- A conversion between integers of different widths, or of a truth value to an integer. -/
theorem Rel.intCast (hp : p.isPlain) (hq : q.isPlain)
    (hpq : p ≠ q) (hb : q ≠ .bool) (hx : Denotes C fr.regs x p i) (hlt : x < s.module.values.size)
    (hr : Runs (Lowering.build (.intCast x (.int q.bits))) env s r t)
    (hg : C.Takes t) :
    ∃ w' fr', Moves C s A.base callers w fr w' fr' ∧ Rel C A b t n σ w' fr' ∧
      Denotes C fr'.regs r q (q.reduce i) ∧ r < t.module.values.size := by
  have hcx : C.module.typeOf x = .int p.bits :=
    hx.type.trans (machineType_of_isPlain hp)
  have hbits : (s.module.typeOf x).bits = p.bits := by
    rw [← h.typeOf hlt, hcx]
    rfl
  rcases Lowering.runs_intCast hr with ⟨-, -, hsame, -⟩ | ⟨o, he, ho⟩
  · -- plain types of the same width are the same
    cases p <;> cases q <;> simp_all [Primitive.isPlain, Primitive.bits]
  · have g : Emitted A.func A.entry b s { op := o, type := .int q.bits, args := [some x] } r t := by
      refine h.stands.emitted he ?_ ?_
      all_goals rcases ho with ⟨rfl, -⟩ | ⟨rfl, -⟩ | ⟨rfl, -⟩ <;> simp
    have htype : C.module.typeOf r = q.machineType := by
      rw [machineType_of_isPlain hq]
      exact typeOf_emitted g hg
    have done : ∀ {x' : Word}, Rel.isValue o && isComputed o →
        compute { op := o, type := .int q.bits, args := [some x] } (.int p.bits) [Word.ofInt i] =
          .ok x' → x' = Word.ofInt (q.reduce i) →
        ∃ w' fr', Moves C s A.base callers w fr w' fr' ∧ Rel C A b t n σ w' fr' ∧
          Denotes C fr'.regs r q (q.reduce i) ∧ r < t.module.values.size := by
      intro x' hval hc hx'
      have hc' : compute { op := o, type := .int q.bits, args := [some x] }
          (([x].head?.map C.module.typeOf).getD .void) [Word.ofInt i] = .ok x' := by
        rw [List.head?_cons, Option.map_some, Option.getD_some, hcx]
        exact hc
      obtain ⟨fr', hm, hrel, hr⟩ := h.computed g hg (show _ = [x].map some from rfl)
        (.cons hx.reads .nil) hval hc'
      exact ⟨w.tick, fr', hm, hrel, ⟨hx' ▸ hr, holds_reduce hq hb i, htype⟩, g.lt⟩
    rcases ho with ⟨rfl, -⟩ | ⟨rfl, hone, -⟩ | ⟨rfl, -⟩
    · exact done (by rfl) rfl (wrap_ofInt hq hb i)
    · have hbool : p = .bool := by
        cases p <;> simp_all [Primitive.isPlain, Primitive.bits]
      subst hbool
      refine done (by rfl) rfl ((low_ofInt_of_bool hx.holds).trans (congrArg _ ?_))
      refine (Primitive.Holds.reduce hq hb ?_).symm
      rcases hx.holds with rfl | rfl <;> cases q <;> simp_all [Primitive.isPlain, Primitive.Holds,
        Primitive.bits]
    · exact done (by rfl) rfl (wrap_ofInt hq hb i)

theorem Rel.cast (hp : p.isPlain) (hq : q.isPlain)
    (hx : Denotes C fr.regs x p i) (hlt : x < s.module.values.size)
    (hr : Runs (Lowering.castPrimitive x p q) env s r t) (hg : C.Takes t) :
    ∃ w' fr', Moves C s A.base callers w fr w' fr' ∧ Rel C A b t n σ w' fr' ∧
      Denotes C fr'.regs r q (Core.converted p q i) ∧ r < t.module.values.size := by
  unfold Core.converted
  rcases Lowering.runs_castPrimitive hp hq hr with ⟨rfl, rfl, rfl⟩ | ⟨hpq, rfl, z, u, hz, he⟩ |
    ⟨hpq, hb, he⟩
  · rw [if_pos rfl]
    exact ⟨w, fr, .refl _ _, h.mono (Nat.le_succ n), hx, hlt⟩
  · rw [if_neg hpq, if_pos rfl]
    have gz := h.stands.consted hz
    have g := gz.adds.stands.icmp he
    obtain ⟨hrel, hreads, htype⟩ := h.const gz (g.adds.grows.trans hg)
    have hz : Denotes C fr.regs z p 0 := by
      refine ⟨?_, holds_zero p, htype.trans (machineType_of_isPlain hp).symm⟩
      rw [← wrap_ofInt_of_holds hp (holds_zero p)]
      exact hreads
    obtain ⟨fr', hm, hrel', hd⟩ := hrel.compare .ne hp hx hz g hg
    refine ⟨w.tick, fr', hm.since gz.adds.grows, hrel', ?_, g.lt⟩
    have : Core.ofBool (Core.compared .ne i 0) = if i = 0 then 0 else 1 := by
      by_cases hi : i = 0 <;> simp [Core.compared, Core.ofBool, hi]
    rwa [this] at hd
  · rw [if_neg hpq, if_neg hb]
    exact h.intCast hp hq hpq hb hx hlt he hg

end

end SsaCompiler.Simulation
