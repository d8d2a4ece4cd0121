import SsaCompiler.Proofs.Lowering.Operands

/-!
# Both outcomes of compilation

A step of compilation has a result or fails, and leaves a state behind in both cases. `Compile.Meets`
says what is true of the result, and that a failure is not one over blocks and variables. A phase is
described by what holds of the declarations or methods that are still to come.
-/

namespace SsaCompiler

variable {p : Phase}

namespace Compile

variable {α β : Type} {x : Compile α} {f : α → Compile β} {I I' : Compilation → Prop}
  {J J' : α → Compilation → Prop} {K : β → Compilation → Prop} {s t : Compilation} {e : Failure}

/-- A step that starts where `I` is true leads to where `J` is true of its result. If it fails, then
not over blocks and variables. -/
def Meets (I : Compilation → Prop) (x : Compile α) (J : α → Compilation → Prop) : Prop :=
  Triple (ρ := Unit) (fun _ => True) I (fun _ => x) J fun e _ => e.Allowed True

namespace Meets

theorem bind (hx : Meets I x J) (hf : ∀ a, Meets (J a) (f a) K) : Meets I (x >>= f) K :=
  Triple.bind (x := fun _ => x) (f := fun a _ => f a) hx hf

theorem weaken (hx : Meets I x J) (hI : ∀ s, I' s → I s) (hJ : ∀ a s, J a s → J' a s) :
    Meets I' x J' :=
  Triple.weaken hx hI hJ

theorem pure {a : α} (h : ∀ s, I s → J a s) : Meets I (pure a) J :=
  Triple.pure h

theorem get_bind {g : Compilation → Compile β} (h : ∀ r, I r → Meets I (g r) K) :
    Meets I (get >>= g) K :=
  Triple.get_bind (g := fun r _ => g r) h

theorem pointwise (h : ∀ r, I r → Meets (fun s => s = r) x J) : Meets I x J :=
  fun _ s _ hs => h s hs trivial rfl

theorem known {p : Prop} (hx : p → Meets I x J) : Meets (fun s => p ∧ I s) x J :=
  Triple.known hx

theorem set {r : Compilation} {J : PUnit → Compilation → Prop} (h : ∀ s, I s → J ⟨⟩ r) :
    Meets I (set r) J :=
  Triple.set h

theorem modify {g : Compilation → Compilation} {J : PUnit → Compilation → Prop}
    (h : ∀ s, I s → J ⟨⟩ (g s)) : Meets I (modify g) J :=
  Triple.modify h

theorem fail {site : Site} {cause : Cause} : Meets I (fail site cause : Compile α) J :=
  Triple.throw fun _ _ => trivial

theorem fail_bind {site : Site} {cause : Cause} : Meets I (Compile.fail site cause >>= f) K :=
  bind (J := fun _ _ => False) fail fun _ _ _ _ => False.elim

theorem goes (hx : Meets I x J) (hs : I s) {a : α} (hg : Goes x s a t) : J a t :=
  (@hx () s trivial hs).1 a t hg

theorem allowed (hx : Meets I x J) (hs : I s) (hf : x.run s = (.error e, t)) : e.Allowed True :=
  (@hx () s trivial hs).2 e t hf

end Meets

theorem meets_hasModule (hI : ∀ s, I s → s.packages.isSome) :
    Meets I hasModule fun b s => b = true ∧ I s :=
  .get_bind fun r hr => .pure fun _ hs => ⟨hI r hr, hs⟩

theorem meets_own {m : Method} {u : SourceUnit} (hI : ∀ s, I s → s.unit = u) :
    Meets I (own m) fun f s => f = ⟨u.number, m⟩ ∧ I s :=
  .get_bind fun r hr => .pure fun s hs => ⟨by rw [hI r hr], hs⟩

theorem meets_lift {y : Env → Except Failure α} {P : α → Prop} {r : Compilation}
    (hy : ∀ env, Computes (y env) P) :
    Meets (fun s => s = r) (lift y) fun a s => y r.env = .ok a ∧ s = r := by
  refine .get_bind fun r' hr => ?_
  subst hr
  split
  next a ha => exact .pure fun s hs => ⟨ha, hs⟩
  next e he => exact Triple.throw fun _ _ => (hy r'.env).allowed e he

theorem meets_typing {y : Typing α} {I' : TypingState → Prop} {J' : α → TypingState → Prop}
    {R : Env → Prop} (hy : Triple R I' y J' fun e _ => e.Allowed True)
    (hR : ∀ s, I s → R s.env) (hI : ∀ s, I s → I' s.typing)
    (hJ : ∀ s a l, I s → J' a l → J a { s with typing := l }) : Meets I (typing y) J := by
  refine .get_bind fun r hr => ?_
  obtain ⟨hok, herr⟩ := hy (hR r hr) (hI r hr)
  rcases hrun : (y.run r.env).run r.typing with ⟨e | a, l⟩
  · exact (Meets.set (J := fun _ _ => True) fun _ _ => trivial).bind fun _ =>
      Triple.throw fun _ _ => herr e l hrun
  · exact (Meets.set fun _ _ => hJ r a l hr (hok a l hrun)).bind fun _ => .pure fun _ hs => hs

theorem meets_lowering {y : Lowering α} {I' : LoweringState → Prop} {J' : α → LoweringState → Prop}
    {R : Env → Prop} {E : Failure → LoweringState → Prop} (hy : Triple R I' y J' E)
    (hE : ∀ e l, E e l → e.Allowed True) (hR : ∀ s, I s → R s.env) (hI : ∀ s, I s → I' s.lowering)
    (hJ : ∀ s a l, I s → J' a l → J a { s with lowering := l }) : Meets I (lowering y) J := by
  refine .get_bind fun r hr => ?_
  obtain ⟨hok, herr⟩ := hy (hR r hr) (hI r hr)
  rcases hrun : (y.run r.env).run r.lowering with ⟨e | a, l⟩
  · exact (Meets.set (J := fun _ _ => True) fun _ _ => trivial).bind fun _ =>
      Triple.throw fun _ _ => hE e l (herr e l hrun)
  · exact (Meets.set fun _ _ => hJ r a l hr (hok a l hrun)).bind fun _ => .pure fun _ hs => hs

theorem meets_observe {n : Node} {y : Compile Unit} {J : Compilation → Prop}
    (hI : ∀ s es, I s → I { s with events := es }) (hJ : ∀ s es, J s → J { s with events := es })
    (hy : Meets I y fun _ => J) : Meets I (observe p n y) fun _ => J :=
  (Meets.modify fun s hs => hI s _ hs).bind fun _ => hy.bind fun _ => .modify fun s hs => hJ s _ hs

theorem meets_eachMethod {g : Method → Compile Unit} {Q : List Method → Compilation → Prop}
    (hevents : ∀ ms s es, Q ms s → Q ms { s with events := es }) (rest : List Method) :
    ∀ ms, (∀ m ∈ ms, ∀ rest, Meets (Q (m :: rest)) (g m) fun _ => Q rest) →
      Meets (Q (ms ++ rest)) (eachMethod p g ms) fun _ => Q rest
  | [], _ => .pure fun _ hs => hs
  | m :: ms, h => by
    obtain ⟨hm, hms⟩ := List.forall_mem_cons.mp h
    exact (meets_observe (hevents _) (hevents _) (hm _)).bind fun _ =>
      meets_eachMethod hevents rest ms hms

theorem meets_phase {Q : List Decl → Compilation → Prop}
    (hevents : ∀ ds s es, Q ds s → Q ds { s with events := es }) (rest : List Decl) :
    ∀ ds, (∀ d ∈ ds, ∀ rest, Meets (Q (d :: rest)) (dispatch p d) fun _ => Q rest) →
      Meets (Q (ds ++ rest)) (phase p ds) fun _ => Q rest
  | [], _ => .pure fun _ hs => hs
  | d :: ds, h => by
    obtain ⟨hd, hds⟩ := List.forall_mem_cons.mp h
    exact (meets_observe (hevents _) (hevents _) (hd _)).bind fun _ =>
      meets_phase hevents rest ds hds

theorem phases_append : ∀ ps qs : List Phase,
    phases (ps ++ qs) = phases ps >>= fun _ => phases qs
  | [], qs => rfl
  | p :: ps, qs => by
    simp only [List.cons_append, phases, phases_append ps qs, bind_assoc]

theorem meets_phases_nil {J : Compilation → Prop} : Meets J (phases []) fun _ => J :=
  .pure fun _ hs => hs

theorem meets_phases_cons {ps : List Phase} {u : SourceUnit} {J : Compilation → Prop}
    {K : Compilation → Prop} (hI : ∀ s, I s → s.unit = u)
    (hp : Meets I (phase p u.decls) fun _ => J) (hps : Meets J (phases ps) fun _ => K) :
    Meets I (phases (p :: ps)) fun _ => K := by
  refine .get_bind fun r hr => ?_
  rw [hI r hr]
  exact hp.bind fun _ => hps

end Compile

end SsaCompiler
