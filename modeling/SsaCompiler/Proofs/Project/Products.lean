import SsaCompiler.Project.Basic

/-!
# The files of a build

A build writes one file for each unit, named after the package of the unit. If the names hold no
slashes, then all files are in the directory of the build, and each of them has the text of its
unit when the build has ended. With slashes, one file can take the place of another one.
-/

namespace SsaCompiler

open List

/-! ## Paths -/

namespace Path

variable {a b dir n s : String} {ps : List String} {cs ds p : List Char} {rooted : Bool}

theorem split_ne_nil (cs : List Char) : split cs ≠ [] := by
  fun_cases split cs <;> simp_all

theorem split_append (cs ds : List Char) : split (cs ++ '/' :: ds) = split cs ++ split ds := by
  induction cs with
  | nil =>
    obtain ⟨q, qs, h⟩ := exists_cons_of_ne_nil (split_ne_nil ds)
    simp [split, h]
  | cons c cs ih =>
    obtain ⟨q, qs, h⟩ := exists_cons_of_ne_nil (split_ne_nil cs)
    by_cases hc : c = '/' <;> simp [split, ih, h, hc]

theorem not_mem_of_mem_split (h : p ∈ split cs) : '/' ∉ p := by
  induction cs generalizing p with
  | nil => simp_all [split]
  | cons c cs ih =>
    obtain ⟨q, qs, hs⟩ := exists_cons_of_ne_nil (split_ne_nil cs)
    by_cases hc : c = '/' <;> simp [split, hs, hc] at h ih <;> grind

theorem split_of_not_mem (h : '/' ∉ cs) : split cs = [cs] := by
  induction cs with
  | nil => rfl
  | cons c cs ih =>
    rw [mem_cons, not_or] at h
    simp [split, ih h.2, Ne.symm h.1]

/-- A text that can be a part of a path. -/
def IsPart (s : String) : Prop :=
  s ≠ "" ∧ '/' ∉ s.toList

theorem isPart_of_mem_parts (h : n ∈ parts s) : IsPart n := by
  simp only [parts, mem_map, mem_filter] at h
  obtain ⟨p, ⟨hp, hne⟩, rfl⟩ := h
  refine ⟨fun h => ?_, by simpa using not_mem_of_mem_split hp⟩
  simp_all [String.ext_iff]

theorem parts_append : parts (a ++ "/" ++ b) = parts a ++ parts b := by
  simp [parts, split_append]

theorem IsPart.parts_eq (h : IsPart s) : parts s = [s] := by
  simp [parts, split_of_not_mem h.2, h.1]

theorem parts_intercalate : ∀ {ps}, (∀ p ∈ ps, IsPart p) → parts ("/".intercalate ps) = ps
  | [], _ => rfl
  | [p], h => (h p (by simp)).parts_eq
  | p :: q :: ps, h => by
    rw [String.intercalate_cons_cons, parts_append, (h p (by simp)).parts_eq,
      parts_intercalate fun r hr => h r (mem_cons_of_mem p hr), singleton_append]

theorem isRooted_append (h : a ≠ "") : isRooted (a ++ b) = isRooted a := by
  obtain ⟨c, cs, hc⟩ := exists_cons_of_ne_nil (mt String.toList_eq_nil_iff.mp h)
  simp [isRooted, hc]

theorem IsPart.isRooted_eq (h : IsPart s) : isRooted s = false := by
  have hs := h.2
  rw [isRooted, beq_eq_false_iff_ne]
  exact fun h => hs (mem_of_mem_head? h)

theorem isRooted_intercalate (h : ∀ p ∈ ps, IsPart p) : isRooted ("/".intercalate ps) = false := by
  match ps with
  | [] => rfl
  | [p] => exact (h p (by simp)).isRooted_eq
  | p :: q :: _ =>
    have hp := h p (by simp)
    rw [String.intercalate_cons_cons, String.append_assoc, isRooted_append hp.1, hp.isRooted_eq]

theorem mem_push (h : n ∈ push rooted ps s) : n = s ∨ n ∈ ps := by
  unfold push at h
  grind

theorem mem_of_mem_foldl_push {qs : List String}
    (h : n ∈ qs.foldl (push rooted) ps) : n ∈ ps ∨ n ∈ qs := by
  induction qs generalizing ps with
  | nil => exact .inl h
  | cons q qs ih => grind [mem_push]

theorem isPart_of_mem_cleanParts (h : n ∈ cleanParts s) : IsPart n := by
  have := mem_of_mem_foldl_push (mem_reverse.mp h)
  exact isPart_of_mem_parts (this.resolve_left not_mem_nil)

theorem clean_spec (h : cleanParts s ≠ []) :
    parts (clean s) = cleanParts s ∧ isRooted (clean s) = isRooted s := by
  have hparts := parts_intercalate fun p hp => isPart_of_mem_cleanParts (s := s) hp
  have hroot := isRooted_intercalate fun p hp => isPart_of_mem_cleanParts (s := s) hp
  have hne : "/".intercalate (cleanParts s) ≠ "" := by
    intro hnil
    rw [hnil] at hparts
    exact h hparts.symm
  unfold clean
  cases hs : isRooted s with
  | true =>
    have hslash := parts_append (a := "") (b := "/".intercalate (cleanParts s))
    rw [hparts] at hslash
    exact ⟨hslash, isRooted_append (by decide)⟩
  | false => simp [hne, hparts, hroot]

/-- The name of something in a directory. -/
structure IsName (s : String) : Prop where
  part : IsPart s
  ne_dot : s ≠ "."
  ne_dots : s ≠ ".."

theorem IsName.push_eq (h : IsName n) : push rooted ps n = n :: ps := by
  simp [push, h.ne_dot, h.ne_dots]

/-- A name in a directory leads into this directory. -/
theorem IsName.join_spec (h : IsName n) (dir : String) :
    parts (join dir n) = cleanParts dir ++ [n] ∧ isRooted (join dir n) = isRooted dir := by
  by_cases hdir : dir = ""
  · subst hdir
    have hclean : cleanParts n = [n] := by simp [cleanParts, h.part.parts_eq, h.push_eq]
    have := clean_spec (s := n) (by simp [hclean])
    rw [hclean, h.part.isRooted_eq] at this
    have hjoin : join "" n = clean n := by simp [join, h.part.1]
    rwa [← hjoin] at this
  · have hroot : isRooted (dir ++ "/" ++ n) = isRooted dir := by
      rw [String.append_assoc, isRooted_append hdir]
    have hclean : cleanParts (dir ++ "/" ++ n) = cleanParts dir ++ [n] := by
      simp [cleanParts, hroot, parts_append, h.part.parts_eq, h.push_eq]
    have := clean_spec (s := dir ++ "/" ++ n) (by simp [hclean])
    have hjoin : join dir n = clean (dir ++ "/" ++ n) := by simp [join, hdir]
    rwa [hclean, hroot, ← hjoin] at this

end Path

/-! ## Files -/

namespace FileTree

variable {t t' : FileTree} {p q r : Place} {e : FileEntry} {path text dir n : String}

theorem lookup_replace (entries : List (Place × FileEntry)) :
    (entries.map fun (q, old) => if q == p then (q, e) else (q, old)).lookup q =
      if q = p then (entries.lookup p).map fun _ => e else entries.lookup q := by
  induction entries with
  | nil => simp
  | cons x entries ih =>
    obtain ⟨r, old⟩ := x
    rw [map_cons, lookup_cons, lookup_cons, lookup_cons, ih]
    by_cases hq : q = r <;> by_cases hp : r = p <;> grind

theorem lookup_put : (t.put p e).entries.lookup q =
    if q = p then some e else t.entries.lookup q := by
  unfold put
  split
  next h =>
    obtain ⟨old, hold⟩ := Option.isSome_iff_exists.mp h
    rw [lookup_replace, hold, Option.map_some]
  next h =>
    rw [Option.not_isSome_iff_eq_none] at h
    rw [lookup_append, lookup_cons, lookup_nil]
    grind

theorem at?_put_of_ne (h : q ≠ p) : (t.put p e).at? q = t.at? q := by
  rw [at?, at?, lookup_put, if_neg h]

/-- A file that is written is on no way that could be followed before. -/
theorem follow_put (h : t.at? p ≠ some .directory) {parts : List String}
    (hr : t.follow q parts = .ok r) : (t.put p e).follow q parts = .ok r := by
  induction parts generalizing q with
  | nil => exact hr
  | cons part parts ih =>
    unfold follow at hr ⊢
    split at hr
    next => cases hr
    next => cases hr
    next hq =>
      have hne : q ≠ p := fun hqp => h (hqp ▸ hq)
      rw [at?_put_of_ne hne, hq]
      exact ih hr

theorem getLast?_of_follow (h : Path.IsName n) {parts : List String}
    (hr : t.follow p (parts ++ [n]) = .ok r) : r.getLast? = some n := by
  induction parts generalizing p with
  | nil =>
    rw [nil_append, follow] at hr
    split at hr
    next => cases hr
    next => cases hr
    next =>
      cases hr
      simp [enter, h.ne_dot, h.ne_dots]
  | cons part parts ih =>
    rw [cons_append, follow] at hr
    split at hr
    next => cases hr
    next => cases hr
    next => exact ih hr

theorem getLast?_of_locate (h : Path.IsName n) (hp : t.locate (Path.join dir n) = .ok p) :
    p.getLast? = some n := by
  unfold locate at hp
  split at hp
  next => cases hp
  split at hp
  next => cases hp
  rw [(h.join_spec dir).1] at hp
  exact getLast?_of_follow h hp

theorem read_eq_ok : t.read path = .ok text ↔
    ∃ p, t.locate path = .ok p ∧ Path.endsWithSlash path = false ∧
      t.at? p = some (.file text) := by
  unfold read find
  grind

theorem write_eq_ok (h : t.write path text = (.ok (), t')) : ∃ p, t.locate path = .ok p ∧
    Path.endsWithSlash path = false ∧ t.at? p ≠ some .directory ∧ t' = t.put p (.file text) := by
  unfold write at h
  split at h
  next => cases h
  next p hp =>
    split at h
    next => cases h
    next hfree =>
      rw [Bool.or_eq_true, not_or, Bool.not_eq_true, beq_iff_eq] at hfree
      exact ⟨p, hp, hfree.1, hfree.2, (Prod.ext_iff.mp h).2.symm⟩

theorem locate_put (h : t.at? p ≠ some .directory) (hr : t.locate path = .ok r) :
    (t.put p e).locate path = .ok r := by
  unfold locate at hr ⊢
  split at hr
  next => cases hr
  split at hr
  next => cases hr
  next h₁ h₂ =>
    rw [if_neg h₁, if_neg h₂]
    exact follow_put h hr

/-- What has been written is read. -/
theorem read_write (h : t.write path text = (.ok (), t')) : t'.read path = .ok text := by
  obtain ⟨p, hp, hslash, hfree, rfl⟩ := write_eq_ok h
  refine read_eq_ok.mpr ⟨p, locate_put hfree hp, hslash, ?_⟩
  cases hfixed : isFixed p with
  | true => simp [at?, hfixed] at hfree
  | false => simp [at?, hfixed, lookup_put]

/-- Other files of the same directory stay as they are. -/
theorem read_write_of_ne {m text' : String} (hm : Path.IsName m) (hn : Path.IsName n) (hne : n ≠ m)
    (h : t.write (Path.join dir m) text' = (.ok (), t'))
    (hr : t.read (Path.join dir n) = .ok text) : t'.read (Path.join dir n) = .ok text := by
  obtain ⟨p, hp, -, hfree, rfl⟩ := write_eq_ok h
  obtain ⟨q, hq, hslash, hat⟩ := read_eq_ok.mp hr
  -- a place ends with the name of what is there
  have hqp : q ≠ p := by
    rintro rfl
    have := getLast?_of_locate hm hp
    rw [getLast?_of_locate hn hq] at this
    exact hne (Option.some.inj this)
  exact read_eq_ok.mpr ⟨q, locate_put hfree hq, hslash, by rw [at?_put_of_ne hqp, hat]⟩

end FileTree

/-! ## Builds -/

namespace Build

variable {b : Build} {u : BuiltUnit} {us : List BuiltUnit} {dir id text n : String}
  {target : BuildTarget} {paths : List String} {t t' : FileTree}

theorem writeProduct_eq_ok {product : Except EmitError String} {path : String}
    (h : (writeProduct (m := StateM FileTree) path product).run t = (.ok (), t')) :
    ∃ text, product = .ok text ∧ t.write path text = (.ok (), t') := by
  simp only [writeProduct, Files.write, StateT.run_bind, StateT.run_modifyGet, pure_bind] at h
  split at h
  next => cases h
  next hw =>
    cases product with
    | error e => cases h
    | ok text =>
      cases h
      exact ⟨text, rfl, Prod.ext hw rfl⟩

theorem emitUnits_cons
    (h : (emitUnits (m := StateM FileTree) dir target id (u :: us)).run t = (.ok paths, t')) :
    ∃ text t₁ ps, unitText target id u = .ok text ∧
      t.write (unitPath dir target u) text = (.ok (), t₁) ∧
      (emitUnits (m := StateM FileTree) dir target id us).run t₁ = (.ok ps, t') ∧
      paths = unitPath dir target u :: ps := by
  simp only [emitUnits, StateT.run_bind] at h
  cases hw : (writeProduct (m := StateM FileTree) (unitPath dir target u)
    (unitText target id u)).run t with
  | mk r t₁ =>
    rw [hw] at h
    cases r with
    | error e => cases h
    | ok x =>
      obtain ⟨text, htext, hw⟩ := writeProduct_eq_ok hw
      cases hrest : (emitUnits (m := StateM FileTree) dir target id us).run t₁ with
      | mk r t₂ =>
        simp only [bind, StateT.run, StateT.bind] at h hrest
        rw [hrest] at h
        cases r with
        | error e => cases h
        | ok ps =>
          cases h
          exact ⟨text, t₁, ps, htext, hw, hrest, rfl⟩

theorem isName_unitFile (h : '/' ∉ u.package.name.toList) : Path.IsName (unitFile target u) := by
  have hlength : 3 ≤ (unitFile target u).toList.length := by
    cases target <;> simp [unitFile, BuildTarget.name]
  refine ⟨⟨fun hu => ?_, ?_⟩, fun hu => ?_, fun hu => ?_⟩
  · simp [hu] at hlength
  · cases target <;> simp [unitFile, BuildTarget.name, h]
  · simp [hu] at hlength
  · simp [hu] at hlength

theorem unitFile_inj {u' : BuiltUnit} :
    unitFile target u = unitFile target u' ↔ u.package.name = u'.package.name := by
  simp [unitFile, String.ext_iff]

theorem read_emitUnits (hn : Path.IsName n)
    (hus : ∀ u ∈ us, Path.IsName (unitFile target u) ∧ n ≠ unitFile target u)
    (h : (emitUnits (m := StateM FileTree) dir target id us).run t = (.ok paths, t'))
    (hr : t.read (Path.join dir n) = .ok text) : t'.read (Path.join dir n) = .ok text := by
  induction us generalizing t paths with
  | nil =>
    cases h
    exact hr
  | cons u us ih =>
    obtain ⟨_, t₁, ps, -, hw, hrest, -⟩ := emitUnits_cons h
    have hu := hus u mem_cons_self
    exact ih (fun u hu => hus u (mem_cons_of_mem _ hu)) hrest
      (FileTree.read_write_of_ne hu.1 hn hu.2 hw hr)

theorem emitUnits_spec (hus : ∀ u ∈ us, Path.IsName (unitFile target u))
    (hnodup : (us.map (unitFile target)).Nodup)
    (h : (emitUnits (m := StateM FileTree) dir target id us).run t = (.ok paths, t')) :
    paths = us.map (unitPath dir target) ∧
      ∀ u ∈ us, ∃ text, unitText target id u = .ok text ∧
        t'.read (unitPath dir target u) = .ok text := by
  induction us generalizing t paths with
  | nil =>
    cases h
    exact ⟨rfl, fun _ hu => absurd hu not_mem_nil⟩
  | cons u us ih =>
    obtain ⟨text, t₁, ps, htext, hw, hrest, rfl⟩ := emitUnits_cons h
    rw [map_cons, nodup_cons] at hnodup
    rw [forall_mem_cons] at hus
    obtain ⟨rfl, hread⟩ := ih hus.2 hnodup.2 hrest
    refine ⟨rfl, forall_mem_cons.mpr ⟨⟨text, htext, ?_⟩, hread⟩⟩
    refine read_emitUnits hus.1 (fun v hv => ⟨hus.2 v hv, fun heq => ?_⟩) hrest
      (FileTree.read_write hw)
    exact hnodup.1 (heq ▸ mem_map_of_mem hv)

theorem emit_eq_ok (h : (b.emit (m := StateM FileTree) dir target id).run t = (.ok paths, t')) :
    ∃ t₁, (emitUnits (m := StateM FileTree) dir target id b.units).run t₁ = (.ok paths, t') := by
  simp only [emit, Files.makeDirs, StateT.run_bind, StateT.run_modifyGet, pure_bind] at h
  split at h
  next => cases h
  next => exact ⟨_, h⟩

/-- A build of packages without slashes in their names has a file in the directory for every unit,
each at a path of its own, with the text of the unit, and no file has been overwritten when the build
has ended. -/
theorem emit_loses_no_product (hnames : (b.units.map fun u => u.package.name).Nodup)
    (hslash : ∀ u ∈ b.units, '/' ∉ u.package.name.toList)
    (h : (b.emit (m := StateM FileTree) dir target id).run t = (.ok paths, t')) :
    paths = b.units.map (unitPath dir target) ∧ paths.Nodup ∧ ∀ u ∈ b.units,
      Path.isRooted (unitPath dir target u) = Path.isRooted dir ∧
      Path.parts (unitPath dir target u) =
        Path.cleanParts dir ++ [u.package.name ++ "." ++ target.name] ∧
      ∃ text, unitText target id u = .ok text ∧ t'.read (unitPath dir target u) = .ok text := by
  obtain ⟨t₁, h₁⟩ := emit_eq_ok h
  have hus : ∀ u ∈ b.units, Path.IsName (unitFile target u) :=
    fun u hu => isName_unitFile (hslash u hu)
  have hfiles : (b.units.map (unitFile target)).Nodup := by
    rw [List.Nodup, pairwise_map] at hnames ⊢
    exact hnames.imp fun hne heq => hne (unitFile_inj.mp heq)
  obtain ⟨rfl, hread⟩ := emitUnits_spec hus hfiles h₁
  have hjoin := fun u hu => (hus u hu).join_spec dir
  refine ⟨rfl, ?_, fun u hu => ⟨(hjoin u hu).2, (hjoin u hu).1, hread u hu⟩⟩
  rw [List.Nodup, pairwise_map] at hfiles ⊢
  refine hfiles.imp_of_mem fun {u v} hu hv hne heq => hne ?_
  have hparts := (hjoin u hu).1.symm.trans ((congrArg Path.parts heq).trans (hjoin v hv).1)
  exact singleton_inj.mp (append_cancel_left hparts)

/-- A build of empty units for packages of given names. -/
def ofPackages (names : List String) : Build :=
  ⟨names.map fun name => ⟨"", { name := name }, default⟩⟩

theorem emit_loses_no_product_of_two : ∃ t',
    ((ofPackages ["a", "b"]).emit (m := StateM FileTree) "out" .listing "").run {} =
      (.ok ["out/a.ssa", "out/b.ssa"], t') ∧
    ∀ u ∈ (ofPackages ["a", "b"]).units, ∃ text, unitText .listing "" u = .ok text ∧
      t'.read (unitPath "out" .listing u) = .ok text := by
  have hpaths : (((ofPackages ["a", "b"]).emit (m := StateM FileTree) "out" .listing "").run
      {}).1.toOption = some ["out/a.ssa", "out/b.ssa"] := by decide +kernel
  cases hr : ((ofPackages ["a", "b"]).emit (m := StateM FileTree) "out" .listing "").run {} with
  | mk r t' =>
    rw [hr] at hpaths
    cases r with
    | error => cases hpaths
    | ok paths =>
      cases hpaths
      have := emit_loses_no_product (by decide) (by decide) hr
      exact ⟨t', rfl, fun u hu => (this.2.2 u hu).2.2⟩

/-- With slashes, a second unit takes the file of the first one, and a third one leaves the
directory. -/
theorem emit_shares_path : ["a", "./a", "../a"].Nodup ∧
    (((ofPackages ["a", "./a", "../a"]).emit (m := StateM FileTree) "out" .listing "").run
      {}).1.toOption = some ["out/a.ssa", "out/a.ssa", "a.ssa"] := by
  decide +kernel

end Build

end SsaCompiler
