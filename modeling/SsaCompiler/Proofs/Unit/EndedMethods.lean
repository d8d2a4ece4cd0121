import SsaCompiler.Proofs.Unit.PlacedMethods

/-!
# Compiled methods end all their blocks

When the last phase starts, the open blocks are the entry blocks of functions. The phase takes the
methods one by one, goes on in the entry block of each, and leaves its function without open blocks.
So the open blocks are always those of the methods that are still to come, and the variables with
storage are those of the methods before them. The module of an integral unit is kept fit for
verification, and the functions of a plain unit are what its methods say.
-/

namespace SsaCompiler

open List Compile
open Ssa (BlockRef Module)

variable {s c : Compilation} {M : Module}

namespace Lowering.Scene

/-- While bodies are lowered, the functions with an entry block are accounted for. Those whose entry
block does not wait have no open block any more. -/
def ofEntries (whole : Prop) (l : LoweringState) (P : List BlockRef) : Scene where
  strict := True
  whole := whole
  functions := l.functions
  entry g := (l.module.func g).entry
  done g := ∃ e, (l.module.func g).entry = some e ∧ e ∉ P
  done_entry g h := by
    obtain ⟨e, he, -⟩ := h
    rw [he]
    rfl

/-- The function whose entry block waited last has no open block any more. -/
theorem Between.advance {whole : Prop} {s : LoweringState} {P : List BlockRef} {U : List Nat}
    (h : (ofEntries whole l (e :: P)).Between P U s)
    (hP : ∀ b ∈ P, ∃ g, (l.module.func g).entry = some b) :
    (ofEntries whole l P).Between P U s := by
  have hown := h.intact.own trivial
  refine { h with intact := { h.intact with done := ?_ } }
  rintro b hb ⟨e', he', hnot⟩
  have hmem : b ∈ P := h.all b hb (Option.isSome_of_eq_some he')
  obtain ⟨g, hg⟩ := hP b hmem
  have hhome := (hown.block g b (hown.entry g b (h.intact.entry g b hg))).2
  rw [hhome, hg] at he'
  cases he'
  exact hnot hmem

end Lowering.Scene

namespace SourceUnit

open Compile (Meets Goes)
open Lowering (Scene)

variable {u : SourceUnit} {packages : List Package} {m m' : Method} {d : Decl} {rest : List Method}
  {env : Env} {l : LoweringState} {e : BlockRef} {rs : List Core.Method} {r : Core.Method}
  {U : List Nat} {n k : Nat}

/-- The entry block of the function of a method, if the method has a body. -/
def entryOf? (u : SourceUnit) (l : LoweringState) (m : Method) : Option BlockRef :=
  (l.functions.find? fun d => d.method.same ⟨u.number, m⟩).bind fun d =>
    if d.isDefined then (l.module.func d.func).entry else none

/-- The entry blocks of the functions of methods. -/
def entries (u : SourceUnit) (l : LoweringState) (ms : List Method) : List BlockRef :=
  ms.filterMap (u.entryOf? l)

theorem entryOf?_eq_some : u.entryOf? l m = some e ↔
    ∃ d, l.functions.find? (fun d => d.method.same ⟨u.number, m⟩) = some d ∧ d.isDefined ∧
      (l.module.func d.func).entry = some e := by
  unfold entryOf?
  rw [Option.bind_eq_some_iff]
  simp only [Option.ite_none_right_eq_some]

theorem Given.id_eq (h : Given u env l) (hm : u.entryOf? l m = some e) (hm' : u.entryOf? l m' = some e) :
    m.mark.id = m'.mark.id := by
  obtain ⟨d, hd, hdef, he⟩ := entryOf?_eq_some.mp hm
  obtain ⟨d', hd', hdef', he'⟩ := entryOf?_eq_some.mp hm'
  have hown := h.entered.own
  have hfunc : d.func = d'.func :=
    (hown.block _ e (hown.entry _ e he)).2.symm.trans (hown.block _ e (hown.entry _ e he')).2
  obtain rfl : d = d' := h.entered.eq_of_not_apart (mem_of_find?_eq_some hd)
    (mem_of_find?_eq_some hd') fun hne => hne.2 hdef hdef' hfunc
  have hsame := List.find?_some hd
  have hsame' := List.find?_some hd'
  simp only [MethodDef.same, Bool.and_eq_true, beq_iff_eq] at hsame hsame'
  exact hsame.2.symm.trans hsame'.2

theorem exists_of_mem_entries {b : BlockRef} (hb : b ∈ u.entries l rest) :
    ∃ g, (l.module.func g).entry = some b := by
  obtain ⟨m, -, he⟩ := mem_filterMap.mp hb
  obtain ⟨d, -, -, he⟩ := entryOf?_eq_some.mp he
  exact ⟨d.func, he⟩

section

variable (hnodes : (u.allMethods.map fun m => m.mark.id).Nodup)

include hnodes

section

variable (h : Given u env l)

include h

theorem Given.function (hm : m ∈ u.allMethods) :
    ∃ d, l.functions.find? (fun d => d.method.same ⟨u.number, m⟩) = some d ∧
      d.method = ⟨u.number, m⟩ := by
  obtain ⟨d, hd, hsame⟩ := h.declared m hm
  cases hfind : l.functions.find? fun d => d.method.same ⟨u.number, m⟩ with
  | none => exact absurd hsame (List.find?_eq_none.mp hfind d hd)
  | some d' =>
    have hsame' := List.find?_some hfind
    have howns := h.owns d' (mem_of_find?_eq_some hfind)
    exact ⟨d', rfl, eq_of_same hnodes howns ⟨m, hm, rfl⟩ hsame'⟩

theorem Given.entryOf?_of_external (hm : m ∈ u.allMethods)
    (hext : Typing.isExternal m) : u.entryOf? l m = none := by
  obtain ⟨d, hd, hmethod⟩ := h.function hnodes hm
  have hdef := h.entered.defined d (mem_of_find?_eq_some hd)
  rw [hmethod, hext] at hdef
  rw [entryOf?, hd, Option.bind_some, if_neg (Bool.eq_false_iff.mp hdef)]

theorem Given.entry (hm : m ∈ u.allMethods) (hext : Typing.isExternal m = false) :
    ∃ d e, l.functions.find? (fun d => d.method.same ⟨u.number, m⟩) = some d ∧ d.isDefined ∧
      (l.module.func d.func).entry = some e ∧ u.entryOf? l m = some e := by
  obtain ⟨d, hd, hmethod⟩ := h.function hnodes hm
  have hmem := mem_of_find?_eq_some hd
  have hdef := h.entered.defined d hmem
  rw [hmethod, hext] at hdef
  obtain ⟨e, he, -⟩ := h.entered.isOpen d hmem hdef
  exact ⟨d, e, hd, hdef, he, entryOf?_eq_some.mpr ⟨d, hd, hdef, he⟩⟩

theorem Given.nodup_entries : (u.entries l u.allMethods).Nodup := by
  unfold entries List.Nodup
  rw [pairwise_filterMap]
  refine (pairwise_map.mp hnodes).imp fun {m m'} hne e he e' he' heq => hne ?_
  exact h.id_eq he (heq ▸ he')

/-- Before the first body is lowered, the entry blocks of all functions wait. -/
theorem Given.between :
    (Scene.ofEntries u.IsIntegral l (u.entries l u.allMethods)).Between
      (u.entries l u.allMethods) [] l := by
  have hall : ∀ b, l.module.IsOpen b →
      (l.module.func (l.module.block b).func).entry = some b ∧ b ∈ u.entries l u.allMethods := by
    intro b hb
    obtain ⟨d, hd, hdef, hfunc, he⟩ := h.entered.all b hb
    obtain ⟨m, hm, hmethod⟩ := h.owns d hd
    obtain ⟨d', hd', hmethod'⟩ := h.function hnodes hm
    obtain rfl : d = d' := by
      refine h.entered.eq_of_not_apart hd (mem_of_find?_eq_some hd') fun hne => ?_
      have hsame := hne.1
      rw [hmethod, hmethod', same_self] at hsame
      cases hsame
    exact ⟨hfunc ▸ he, mem_filterMap.mpr ⟨m, hm, entryOf?_eq_some.mpr ⟨d, hd', hdef, he⟩⟩⟩
  refine ⟨⟨prefix_refl _, fun _ => h.entered.own, fun _ _ he => he, fun b hb => ?_⟩,
    h.nodup_entries hnodes, fun b hb => ?_, fun b hb _ => (hall b hb).2, fun _ v hv => ?_⟩
  · rintro ⟨e, he, hnot⟩
    rw [(hall b hb).1] at he
    cases he
    exact hnot (hall b hb).2
  · obtain ⟨m, -, he⟩ := mem_filterMap.mp hb
    obtain ⟨d, hd, hdef, he⟩ := entryOf?_eq_some.mp he
    obtain ⟨e, he', hopen⟩ := h.entered.isOpen d (mem_of_find?_eq_some hd) hdef
    cases he.symm.trans he'
    exact hopen
  · rw [h.entered.storage] at hv
    cases hv

end

end

/-- Variables belong to methods that are not to come. -/
def Spent (u : SourceUnit) (rs : List Core.Method) (rest : List Method) (U : List Nat) : Prop :=
  ∀ v ∈ U, ∃ r ∈ rs, v ∈ r.binds ∧ ∀ m ∈ rest, r.origin ≠ ⟨u.number, m⟩

/-- What lowering keeps of integral and of plain units. -/
structure Keeping (u : SourceUnit) (F : List MethodFunc) (rs : List Core.Method) (rest : List Method)
    (l : LoweringState) : Prop where
  sound : u.IsIntegral → Lowering.Sound F l ∧ Lowering.Holds l.module (Lowering.paramItems F)
  generating : u.IsPlain → ∃ st, Resolved u st F rs ∧ Generating u F rs rest l

/-- What holds while bodies are lowered. No variables have storage but those of methods that are not
to come. -/
structure EndingBlocks (u : SourceUnit) (l : LoweringState) (rest : List Method) (s : Compilation) :
    Prop extends Placed u l.functions [] s, Keeping u l.functions s.methods rest s.lowering where
  part : rest <:+ u.allMethods
  between : ∃ U, (Scene.ofEntries u.IsIntegral l (u.entries l rest)).Between (u.entries l rest) U
    s.lowering ∧ u.Spent s.methods rest U

theorem EndingBlocks.withEvents (h : EndingBlocks u l rest s) (es : List Event) :
    EndingBlocks u l rest { s with events := es } :=
  { h with }

theorem Spent.tail (h : u.Spent rs (m :: rest) U) : u.Spent rs rest U := by
  intro v hv
  obtain ⟨r, hr, hvr, hne⟩ := h v hv
  exact ⟨r, hr, hvr, fun m' hm' => hne m' (mem_cons_of_mem _ hm')⟩

/-- A method that has not been resolved has no body. -/
theorem EndingBlocks.isExternal (h : EndingBlocks u l rest s) (hm : m ∈ u.allMethods)
    (hnone : s.methods.find? (fun r => r.origin.same ⟨u.number, m⟩) = none) :
    Typing.isExternal m := by
  by_contra hext
  obtain ⟨r, hr, horigin⟩ :=
    (h.resolved m hm (Bool.eq_false_iff.mpr hext)).resolve_left not_mem_nil
  exact absurd (same_self _) (horigin ▸ List.find?_eq_none.mp hnone r hr)

section

variable (hnodes : (u.allMethods.map fun m => m.mark.id).Nodup)

include hnodes

theorem not_mem_of_suffix (hpart : m :: rest <:+ u.allMethods) : m ∉ rest := by
  have hnodup := hnodes.sublist (hpart.sublist.map _)
  exact fun hmem => (nodup_cons.mp hnodup).1 (mem_map_of_mem hmem)

variable (hl : Given u env l)

include hl

theorem PlacingVars.endingBlocks (h : PlacingVars u env l [] s) :
    EndingBlocks u l u.allMethods s where
  toPlaced := h.toPlaced
  part := suffix_refl _
  between := ⟨[], h.lowering.symm ▸ hl.between hnodes, forall_mem_nil _⟩
  sound hu := h.lowering.symm ▸ ⟨(hl.giving hu).sound, (hl.giving hu).params⟩
  generating hu := by
    obtain ⟨st, hres⟩ := (h.resolving hu).resolved (hl.collected hu)
    rw [h.lowering, hu.allMethods_eq]
    exact ⟨st, hres, hres.generating (hl.collected hu)⟩

theorem EndingBlocks.skip (h : EndingBlocks u l (m :: rest) s) (hext : Typing.isExternal m) :
    EndingBlocks u l rest s := by
  have hm : m ∈ u.allMethods := h.part.subset mem_cons_self
  obtain ⟨U, hbetween, hU⟩ := h.between
  have hentries : u.entries l (m :: rest) = u.entries l rest :=
    filterMap_cons_none (hl.entryOf?_of_external hnodes hm hext)
  rw [hentries] at hbetween
  refine { h with
    part := (suffix_cons m rest).trans h.part
    between := ⟨U, hbetween, hU.tail⟩
    generating := fun hu => ?_ }
  rw [hu.isExternal_eq (hu.allMethods_eq ▸ hm)] at hext
  cases hext

/-- The body of a method goes into its function, which has no open blocks then. -/
theorem EndingBlocks.leads_method (h : EndingBlocks u l (m :: rest) s) (hr : r ∈ s.methods)
    (hext : Typing.isExternal m = false)
    (hplaced : Typing.MethodPlaced (u.demands l.functions) ⟨u.number, m⟩ n k r) (fuel : Nat) :
    Triple (fun _ => True) (fun l' => l' = s.lowering)
      (Lowering.method (Lowering.defaultsWithin s.defaults fuel) r)
      (fun _ l' => EndingBlocks u l rest { s with lowering := l' }) fun e _ => e.Allowed True := by
  have hm : m ∈ u.allMethods := h.part.subset mem_cons_self
  have hnew := not_mem_of_suffix hnodes h.part
  obtain ⟨U, hbetween, hU⟩ := h.between
  obtain ⟨d, e, hd, hdef, he, hentry⟩ := hl.entry hnodes hm hext
  have hentries : u.entries l (m :: rest) = e :: u.entries l rest := filterMap_cons_some hentry
  rw [hentries] at hbetween
  have hfresh : Fresh r.binds U := by
    refine ⟨hplaced.numbered.nodup, fun v hv hvU => ?_⟩
    obtain ⟨r', hr', hvr', hne⟩ := hU v hvU
    refine hne m mem_cons_self ?_
    rw [← h.apart r hr r' hr' v hv hvr', hplaced.origin]
  have hdv := Lowering.fine_defaultsWithin
    (κ := Scene.ofEntries u.IsIntegral l (e :: u.entries l rest))
    (fun d hd => ⟨fun _ => h.defaults d hd, fun _ => h.defaults d hd⟩) fuel
  have hleads := Lowering.leads_method (U := U) (P := u.entries l rest) hdv hplaced.fit
    (fun _ => hfresh) (hplaced.origin ▸ hplaced.returns) (hplaced.origin.symm ▸ hd) hdef he
  intro env s' _ hs'
  subst hs'
  obtain ⟨hok, herr⟩ := @hleads env _ trivial hbetween
  refine ⟨fun _ l' hrun => ?_, fun e l' hrun => (herr e l' hrun).1⟩
  refine { h with
    part := (suffix_cons m rest).trans h.part
    between := ⟨_, (hok _ l' hrun).advance fun b => exists_of_mem_entries, ?_⟩
    sound := fun hu => ?_
    generating := fun hu => ?_ }
  · obtain ⟨hsound, hparams⟩ := h.sound hu
    obtain ⟨hsound', hkeeps, -⟩ := Lowering.ensures_method hu hdv hplaced.fit
      (fun _ => ⟨hfresh.1, fun _ _ => not_mem_nil⟩)
      (fun d hd hsame => eq_of_same hnodes (hl.owns d hd) ⟨m, hm, hplaced.origin⟩ hsame)
      hsound hparams hrun
    exact ⟨hsound', hparams.keeps hsound.lowered hkeeps⟩
  · obtain ⟨st, hres, hgenerating⟩ := h.generating hu
    exact ⟨st, hres, hgenerating.method hu hres hnew hr hplaced.origin hrun⟩
  · refine forall_mem_append.mpr ⟨fun v hv => ⟨r, hr, hv, fun m' hm' heq => ?_⟩, hU.tail⟩
    rw [hplaced.origin] at heq
    obtain rfl := (MethodDef.mk.inj heq).2
    exact hnew hm'

theorem meets_generateMethod : Meets (EndingBlocks u l (m :: rest)) (Compile.generateMethod m) fun _ =>
    EndingBlocks u l rest := by
  refine .pointwise fun s hs => ?_
  have hm : m ∈ u.allMethods := hs.part.subset mem_cons_self
  refine Meets.bind (meets_own fun t ht => ht ▸ hs.unit) fun f => .known fun hf => ?_
  subst hf
  refine .get_bind fun s' hs' => ?_
  subst hs'
  split
  next hnone =>
    have hnext := hs.skip hnodes hl (hs.isExternal hm hnone)
    exact .pure fun t ht => ht ▸ hnext
  next r hr =>
    have hmem := mem_of_find?_eq_some hr
    have hsame := List.find?_some hr
    obtain ⟨m', hm', hext, n, k, -, hplaced⟩ := hs.placed r hmem
    rw [hplaced.origin] at hsame
    obtain rfl : m' = m :=
      (MethodDef.mk.inj (eq_of_same hnodes ⟨m', hm', rfl⟩ ⟨m, hm, rfl⟩ hsame)).2
    refine meets_lowering (hs.leads_method hnodes hl hmem hext hplaced _)
      (fun _ _ he => he) (fun _ _ => trivial) ?_ ?_
    · rintro t rfl
      rfl
    · rintro t - l' rfl hnext
      exact hnext

theorem meets_generate : Meets (EndingBlocks u l (d.methods ++ rest)) (Compile.generate d) fun _ =>
    EndingBlocks u l rest := by
  cases d with
  | classDecl c =>
    exact meets_eachMethod (fun _ _ es hs => hs.withEvents es) rest _ fun m hm rest =>
      meets_generateMethod hnodes hl
  | method m => exact meets_generateMethod hnodes hl
  | _ => exact .pure fun _ hs => hs

/-- A method that is not to come has a function without open blocks. -/
theorem EndingBlocks.ended (h : EndingBlocks u l rest s) (hm : m ∈ u.allMethods) (hrest : m ∉ rest)
    (hext : Typing.isExternal m = false) :
    ∃ d, s.lowering.functions.find? (fun d => d.method.same ⟨u.number, m⟩) = some d ∧
      d.isDefined ∧ (s.lowering.module.func d.func).entry.isSome ∧
      ∀ b ∈ (s.lowering.module.func d.func).blocks, (s.lowering.module.block b).isTerminated := by
  obtain ⟨d, e, hd, hdef, he, hentry⟩ := hl.entry hnodes hm hext
  obtain ⟨U, hbetween, -⟩ := h.between
  have hintact := hbetween.intact
  have hnot : e ∉ u.entries l rest := by
    intro hmem
    obtain ⟨m', hm', hentry'⟩ := mem_filterMap.mp hmem
    have hid := hl.id_eq hentry hentry'
    exact hrest (inj_on_of_nodup_map hnodes hm (h.part.subset hm') hid ▸ hm')
  refine ⟨d, ?_, hdef, Option.isSome_of_eq_some (hintact.entry _ e he), fun b hb => ?_⟩
  · obtain ⟨more, hmore⟩ := hintact.functions
    rw [← hmore, List.find?_append]
    show (List.find? _ l.functions).or _ = some d
    rw [hd, Option.some_or]
  · obtain ⟨hlt, hhome⟩ := (hintact.own trivial).block _ b hb
    by_contra hopen
    exact hintact.done b ⟨hlt, Bool.eq_false_iff.mpr hopen⟩ ⟨e, hhome ▸ he, hnot⟩

theorem meets_phase_generate {before after : List Decl} (hdecls : u.decls = before ++ after) :
    Meets (EndingBlocks u l u.allMethods) (Compile.phase .generate before) fun _ =>
      EndingBlocks u l (after.flatMap Decl.methods) := by
  unfold allMethods
  rw [hdecls]
  exact meets_phase (Q := fun ds => EndingBlocks u l (ds.flatMap Decl.methods))
    (fun _ _ es hs => hs.withEvents es) after before fun d _ rest => meets_generate hnodes hl

end

/-! ## All phases -/

theorem meets_phases (hnodes : (u.allMethods.map fun m => m.mark.id).Nodup) :
    Meets (fun s => s = Compilation.start u (some packages)) (Compile.phases Phase.all) fun _ s =>
      ∃ l, EndingBlocks u l [] s := by
  have hall : Phase.all = (Phase.declaring ++ [.postProcessUse]) ++ [.generate] := rfl
  rw [hall, phases_append]
  refine meets_resolving.bind fun _ => .pointwise fun s hs => ?_
  obtain ⟨env, l, hl, hplaced⟩ := hs
  refine meets_phases_cons (fun t ht => ht ▸ hplaced.unit)
    (J := fun s => ∃ l, EndingBlocks u l [] s) ?_ meets_phases_nil
  exact (meets_phase_generate hnodes hl (append_nil _).symm).weaken
    (fun t ht => ht ▸ hplaced.endingBlocks hnodes hl) fun _ _ h => ⟨l, h⟩

theorem endingBlocks_of_compile (hnodes : (u.allMethods.map fun m => m.mark.id).Nodup)
    (hc : u.compile packages = (.ok M, c)) :
    M = c.lowering.module ∧ ∃ l, EndingBlocks u l [] c := by
  unfold compile at hc
  split at hc
  next a s hs =>
    cases hc
    exact ⟨rfl, (meets_phases hnodes).goes rfl hs⟩
  next => cases hc

/-- The module of an integral unit is fit for verification. -/
theorem IsIntegral.lowered (hu : u.IsIntegral) (hc : u.compile packages = (.ok M, c)) :
    M.Lowered := by
  obtain ⟨rfl, l, h⟩ := endingBlocks_of_compile hu.nodes hc
  exact (h.sound hu).1.lowered

/-- The module of a plain unit is what its methods say. -/
theorem IsPlain.compiled (hu : u.IsPlain) (hc : u.compile packages = (.ok M, c)) :
    ∃ st, Compiled u st M c.lowering.functions c.methods := by
  obtain ⟨rfl, l, h⟩ := endingBlocks_of_compile hu.nodes hc
  obtain ⟨st, hres, hgenerating⟩ := h.generating hu
  exact ⟨st, hgenerating.compiled hres⟩

/-- Every method of a plain unit is resolved once, and as it is written. -/
theorem IsPlain.resolves (hu : u.IsPlain) (hc : u.compile packages = (.ok M, c)) :
    c.methods.map Core.Method.origin = u.origins.reverse ∧
      ∀ r ∈ c.methods, r.origin.method.Resolves r := by
  obtain ⟨st, h⟩ := hu.compiled hc
  exact ⟨h.origins, fun r hr => (h.sound r hr).resolves⟩

/-- The state in which the last phase comes to a method, outside of a class or within one. -/
inductive Reaches (u : SourceUnit) (packages : List Package) : Method → Compilation → Prop where
  | method {before after : List Decl} {m : Method} {s t : Compilation}
      (decls : u.decls = before ++ .method m :: after)
      (resolved : Goes (Compile.phases (Phase.declaring ++ [.postProcessUse]))
        (Compilation.start u (some packages)) () s)
      (generated : Goes (Compile.phase .generate before) s () t) :
      Reaches u packages m { t with events := ⟨true, .generate, .decl (.method m)⟩ :: t.events }
  | member {before after : List Decl} {c : ClassDecl} {m : Method} {ms more : List Method}
      {s t v : Compilation} (decls : u.decls = before ++ .classDecl c :: after)
      (members : Compile.methodsOf c.members = ms ++ m :: more)
      (resolved : Goes (Compile.phases (Phase.declaring ++ [.postProcessUse]))
        (Compilation.start u (some packages)) () s)
      (generated : Goes (Compile.phase .generate before) s () t)
      (lowered : Goes (Compile.eachMethod .generate Compile.generateMethod ms)
        { t with events := ⟨true, .generate, .decl (.classDecl c)⟩ :: t.events } () v) :
      Reaches u packages m { v with events := ⟨true, .generate, .member (.method m)⟩ :: v.events }

theorem Reaches.endingBlocks (hnodes : (u.allMethods.map fun m => m.mark.id).Nodup)
    (h : u.Reaches packages m s) :
    ∃ env l rest, Given u env l ∧ EndingBlocks u l (m :: rest) s := by
  cases h with
  | method hdecls hresolved hgenerated =>
    obtain ⟨env, l, hl, hplaced⟩ := meets_resolving.goes rfl hresolved
    have hending := (meets_phase_generate hnodes hl hdecls).goes
      (hplaced.endingBlocks hnodes hl) hgenerated
    exact ⟨_, l, _, hl, hending.withEvents _⟩
  | @member _ after c m ms more _ _ _ hdecls hmembers hresolved hgenerated hlowered =>
    obtain ⟨env, l, hl, hplaced⟩ := meets_resolving.goes rfl hresolved
    have hending := (meets_phase_generate hnodes hl hdecls).goes
      (hplaced.endingBlocks hnodes hl) hgenerated
    have hmethods : (Decl.classDecl c :: after).flatMap Decl.methods =
        ms ++ (m :: more ++ after.flatMap Decl.methods) := by
      rw [flatMap_cons, ← append_assoc]
      exact congrArg (· ++ _) hmembers
    rw [hmethods] at hending
    have hnext := (meets_eachMethod (p := .generate) (Q := EndingBlocks u l)
      (fun _ _ es hs => hs.withEvents es) _ ms fun _ _ _ => meets_generateMethod hnodes hl).goes
      (hending.withEvents _) hlowered
    exact ⟨_, l, _, hl, hnext.withEvents _⟩

end SourceUnit

namespace SourceUnit

open Compile (Goes Meets)

variable {u : SourceUnit} {number : Nat} {file : String} {source : List Char}

/-- The compilation of a unit never fails over blocks and their ends, nor over variables that have no
storage or get it twice. When the last phase has lowered a method with a body, all blocks of its
function have their ends. And wherever a list of statements is lowered from an open block on, the block
where this ends has its own end exactly if some statement of the list returns. -/
theorem ends_blocks (hread : SourceUnit.read number file source = .ok u) (packages : List Package) :
    (∀ d t, u.compile packages = (.error (.internal d), t) →
      d.isFlow = false ∧ d.isBinding = false) ∧
    (∀ m s, u.Reaches packages m s →
      (∀ d t, (Compile.generateMethod m).run s = (.error (.internal d), t) →
        d.isFlow = false ∧ d.isBinding = false) ∧
      ∀ t, Goes (Compile.generateMethod m) s () t → Typing.isExternal m = false →
        ∃ d, t.lowering.functions.find? (fun d => d.method.same ⟨u.number, m⟩) = some d ∧
          d.isDefined = true ∧ (t.lowering.module.func d.func).entry.isSome = true ∧
          ∀ b ∈ (t.lowering.module.func d.func).blocks,
            (t.lowering.module.block b).isTerminated = true) ∧
    ∀ values depth env (s t : LoweringState) ss b, s.builder.current = some b → s.module.IsOpen b →
      Runs (Lowering.stmts (Lowering.defaultsWithin values depth) ss) env s () t →
        ∃ c, t.builder.current = some c ∧
          (t.module.block c).isTerminated = Core.anyReturns ss := by
  have hnodes := nodup_methodIds_of_read hread
  refine ⟨fun d t hc => ?_, fun m s hm => ?_, fun _ _ _ _ _ _ _ hb hopen hr =>
    Lowering.isTerminated_of_runs_stmts hb hopen hr⟩
  · have hrun : (Compile.phases Phase.all).run (Compilation.start u (some packages)) =
        (.error (.internal d), t) := by
      unfold compile at hc
      split at hc
      next => cases hc
      next e s hs =>
        cases hc
        exact hs
    obtain ⟨hflow, hbinding⟩ := (meets_phases hnodes).allowed rfl hrun
    exact ⟨hflow, hbinding trivial⟩
  · obtain ⟨env, l, rest, hl, hs⟩ := hm.endingBlocks hnodes
    have hmeets : Meets (EndingBlocks u l (m :: rest)) (Compile.generateMethod m) fun _ =>
        EndingBlocks u l rest := meets_generateMethod hnodes hl
    refine ⟨fun d t ht => ?_, fun t ht hext => ?_⟩
    · obtain ⟨hflow, hbinding⟩ := hmeets.allowed hs ht
      exact ⟨hflow, hbinding trivial⟩
    · have hmem : m ∈ u.allMethods := hs.part.subset mem_cons_self
      exact (hmeets.goes hs ht).ended hnodes hl hmem (not_mem_of_suffix hnodes hs.part) hext

/-- A loop with a return in it, and a chain of branches that all return. -/
def digitText : String :=
  "int digit(int n) \x7b mut int k = n\n" ++
  " while (k > 9) \x7b if (k == 50) \x7b return 2 \x7d\n k = k - 10 \x7d\n" ++
  " if (k < 0) \x7b return -1 \x7d else if (k == 0) \x7b return 0 \x7d else \x7b return k \x7d \x7d"

/-- The state in which the last phase comes to a method that is the first declaration. -/
def firstState (u : SourceUnit) (m : Method) : Compilation :=
  let s := ((Compile.phases (Phase.declaring ++ [.postProcessUse])).run
    (Compilation.start u (some []))).2
  { s with events := ⟨true, .generate, .decl (.method m)⟩ :: s.events }

theorem ends_blocks_digitText : ∃ u m s t, SourceUnit.read 0 "digit.vs" digitText.toList = .ok u ∧
    u.Reaches [] m s ∧ Goes (Compile.generateMethod m) s () t ∧ Typing.isExternal m = false ∧
    ∃ d, t.lowering.functions.find? (fun d => d.method.same ⟨u.number, m⟩) = some d ∧
      (t.lowering.module.func d.func).blocks.length = 10 ∧
      ∀ b ∈ (t.lowering.module.func d.func).blocks,
        (t.lowering.module.block b).isTerminated = true := by
  have hcheck : ((SourceUnit.read 0 "digit.vs" digitText.toList).toOption.any fun u =>
      u.decls.head?.any fun d => d.method?.any fun m => !Typing.isExternal m &&
        ((Compile.phases (Phase.declaring ++ [.postProcessUse])).run
          (Compilation.start u (some []))).1.isOk &&
        ((Compile.generateMethod m).run (u.firstState m)).1.isOk &&
        ((Compile.generateMethod m).run (u.firstState m)).2.lowering.functions.all fun d =>
          (((Compile.generateMethod m).run (u.firstState m)).2.lowering.module.func
            d.func).blocks.length == 10) = true := by
    decide +kernel
  obtain ⟨u, hread, hcheck⟩ := exists_ok_of_any hcheck
  obtain ⟨m, hd, hcheck⟩ : ∃ m, u.decls.head? = some (.method m) ∧ _ := by
    cases hd : u.decls.head? with
    | none =>
      rw [hd] at hcheck
      cases hcheck
    | some d =>
      rw [hd, Option.any_some] at hcheck
      cases d with
      | method m => exact ⟨m, rfl, hcheck⟩
      | _ => cases hcheck
  simp only [Decl.method?, Option.any_some, Bool.and_eq_true, Bool.not_eq_true', all_eq_true,
    beq_iff_eq] at hcheck
  obtain ⟨⟨⟨hext, hresolved⟩, hok⟩, hlength⟩ := hcheck
  obtain ⟨after, hdecls⟩ := List.head?_eq_some_iff.mp hd
  have hfirst : u.decls = [] ++ .method m :: after := hdecls
  have hreach : u.Reaches [] m (u.firstState m) :=
    .method hfirst (goes_of_isOk hresolved) (goes_pure.mpr ⟨rfl, rfl⟩)
  have hgoes := goes_of_isOk hok
  obtain ⟨d, hfind, -, -, hended⟩ := ((ends_blocks hread []).2.1 m _ hreach).2 _ hgoes hext
  exact ⟨u, m, _, _, hread, hreach, hgoes, hext, d, hfind,
    hlength d (mem_of_find?_eq_some hfind), hended⟩

end SourceUnit

end SsaCompiler
