import SsaCompiler.Proofs.Parser.Positions
import SsaCompiler.Unit.Basic

/-!
# What declarations record

A parser gives every node the next number and never goes back to a number that it has given away.
So the methods of a unit have different numbers, whatever the parser reads in between.

Modifiers wait for declarations: those of a block for all that follow in the scope, those of a list for
the next one. What waits in front of a declaration can be read off from its siblings, going back to
the last one that matters. A class body starts with nothing, but a list at its end, behind which no
member follows, goes on waiting outside of the class.

All nodes in a declaration are in place, as those of its statements and expressions are.
-/

namespace SsaCompiler

open List

variable {pos : Pos} {name : String}

/-- The method of a declaration. -/
def Decl.method? : Decl → Option Method
  | .method m => some m
  | _ => none

/-- The method of a member of a class. -/
def Member.method? : Member → Option Method
  | .method m => some m
  | _ => none

/-- The methods of a declaration, those of a class included. -/
def Decl.methods : Decl → List Method
  | .method m => [m]
  | .classDecl c => c.members.filterMap Member.method?
  | _ => []

/-- What is of interest of a declaration beside its siblings. -/
class Sibling (δ : Type) where
  outline : δ → Outline
  methods : δ → List Method
  /-- The modifiers that it records. -/
  recorded? : δ → Option (List String)
  /-- The modifiers that wait for all declarations behind it from now on. -/
  block? : δ → Option (List String)
  /-- The modifiers that wait for the next declaration, unless it leaves them as they are. -/
  pending? : δ → Option (List String)
  /-- What is asked of the declarations inside of it. -/
  Inside : δ → Prop

open Sibling (recorded? block? pending? Inside)

namespace Parser

variable {α β δ : Type} {s t u : State} {c d : Scope} [Sibling δ]

/-- The modifiers that wait behind some siblings: those of the last one of them that tells any. -/
def Scope.behind (c : Scope) (ds : List δ) : Scope :=
  ⟨(ds.reverse.findSome? block?).getD c.block, (ds.reverse.findSome? pending?).getD c.pending⟩

/-- Every declaration records the modifiers that wait in front of it. -/
def Records (c : Scope) (ds : List δ) : Prop :=
  ∀ front x back, ds = front ++ x :: back →
    (∀ words ∈ recorded? x, words = (c.behind front).block ++ (c.behind front).pending) ∧ Inside x

theorem Scope.behind_cons (c : Scope) (x : δ) (ds : List δ) :
    c.behind (x :: ds) = (c.behind [x]).behind ds := by
  have h (f : δ → Option (List String)) (z : List String) : ((x :: ds).reverse.findSome? f).getD z =
      (ds.reverse.findSome? f).getD (([x].reverse.findSome? f).getD z) := by
    rw [reverse_cons, List.findSome?_append]
    cases ds.reverse.findSome? f <;> rfl
  simp only [behind, h]

theorem Records.nil (c : Scope) : Records c ([] : List δ) := by
  simp [Records]

theorem Records.cons {x : δ} {ds : List δ} (hx : ∀ words ∈ recorded? x, words = c.block ++ c.pending)
    (hin : Inside x) (hds : Records (c.behind [x]) ds) : Records c (x :: ds) := by
  rintro (_ | ⟨y, front⟩) z back h
  · cases h
    exact ⟨hx, hin⟩
  · cases h
    rw [c.behind_cons]
    exact hds front z back rfl

instance : Sibling Member where
  outline := .ofMember
  methods m := m.method?.toList
  recorded?
    | .field f => some f.modifiers
    | .method m => some m.modifiers
    | .modifierBlock .. | .modifierList .. => none
  block?
    | .modifierBlock _ words => some words
    | _ => none
  pending?
    | .modifierList _ words => some words
    | .modifierBlock .. | .field _ | .method _ => some []
  Inside _ := True

instance : Sibling Decl where
  outline := .ofDecl
  methods := Decl.methods
  recorded?
    | .classDecl c => some c.modifiers
    | .method m => some m.modifiers
    | _ => none
  block?
    | .modifierBlock _ words => some words
    | _ => none
  pending?
    | .modifierList _ words => some words
    | .classDecl c => some (Scope.behind {} c.members).pending
    | .modifierBlock .. | .method _ => some []
    | .package .. | .importing .. | .using .. => none
  Inside
    | .classDecl c => Records {} c.members
    | _ => True

/-! ## Steps -/

/-- Numbers that have been given away between two states, each of them once. -/
structure Fresh (s t : State) (ids : List Nat) : Prop where
  own : ∀ id ∈ ids, s.nextId ≤ id ∧ id < t.nextId
  apart : ids.Nodup

theorem Fresh.nil (s t : State) : Fresh s t [] :=
  ⟨by simp, .nil⟩

/-- Numbers that are given away in two steps are apart. -/
theorem Fresh.append {xs ys : List Nat} (hxs : Fresh s t xs) (hys : Fresh t u ys) (hst : s.Leads t)
    (htu : t.Leads u) : Fresh s u (xs ++ ys) := by
  have := hst.nextId
  have := htu.nextId
  refine ⟨fun id hid => ?_, nodup_append.mpr ⟨hxs.apart, hys.apart, fun x hx y hy => ?_⟩⟩
  · rcases mem_append.mp hid with hid | hid
    · have := hxs.own id hid
      omega
    · have := hys.own id hid
      omega
  · have := hxs.own x hx
    have := hys.own y hy
    omega

/-- What holds of all that is read from state `s` or a later one on. -/
def Gives (x : Parser α) (s : State) (Q : α → State → Prop) : Prop :=
  ∀ u a t, s.Leads u → x.run u = .ok (a, t) → Q a t

namespace Gives

variable {x : Parser α} {f : α → Parser β} {P : α → State → Prop} {Q : β → State → Prop}

theorem bind (hx : Gives x s P) (hf : ∀ a t, s.Leads t → P a t → Gives (f a) t Q) :
    Gives (x >>= f) s Q := by
  intro u b t hs h
  obtain ⟨a, v, hxr, hfr⟩ := bind_eq_ok.mp h
  exact hf a v (hs.trans (x.leads hxr)) (hx u a v hs hxr) v b t (.refl v) hfr

theorem known {P : α → Prop} (hx : Yields x P) (hf : ∀ a, P a → Gives (f a) s Q) :
    Gives (x >>= f) s Q := by
  intro u b t hs h
  obtain ⟨a, v, hxr, hfr⟩ := bind_eq_ok.mp h
  exact hf a (hx u a v hxr) v b t (hs.trans (x.leads hxr)) hfr

theorem skip (hf : ∀ a, Gives (f a) s Q) : Gives (x >>= f) s Q :=
  known (P := fun _ => True) (fun _ _ _ _ => trivial) fun a _ => hf a

theorem pure {b : β} (h : ∀ t, s.Leads t → Q b t) : Gives (pure b) s Q := by
  intro u a t hs hr
  cases hr
  exact h _ hs

theorem map {g : α → β} (hx : Gives x s P) (h : ∀ a t, s.Leads t → P a t → Q (g a) t) :
    Gives (x >>= fun a => Pure.pure (g a)) s Q := by
  intro u b t hs hr
  obtain ⟨a, v, hxr, hpure⟩ := bind_eq_ok.mp hr
  cases hpure
  exact h a t (hs.trans (x.leads hxr)) (hx u a t hs hxr)

theorem fail {message : String} : Gives (Parser.fail message : Parser β) s Q :=
  fun _ _ _ _ h => nomatch h

theorem mark {g : Mark → β} (h : ∀ m t, s.Leads t → Fresh s t [m.id] → Q (g m) t) :
    Gives (Parser.mark pos >>= fun m => Pure.pure (g m)) s Q := by
  intro u a t hs hr
  have hleads := (Parser.mark pos >>= fun m => Pure.pure (g m) : Parser β).leads hr
  cases hr
  refine h _ _ (hs.trans hleads) ⟨?_, by simp⟩
  have := hs.nextId
  simp
  omega

end Gives

/-! ## Declarations -/

/-- The numbers of the methods of some siblings. -/
def siblingIds (ds : List δ) : List Nat :=
  (ds.flatMap Sibling.methods).map fun m => m.mark.id

/-- What is known of siblings that have been read. -/
structure Read (c : Scope) (s : State) (ds : List δ) (d : Scope) (t : State) : Prop where
  scope : d = c.behind ds
  records : Records c ds
  fresh : Fresh s t (siblingIds ds)
  placed : ∀ x ∈ ds, (Sibling.outline x).Placed

theorem Read.nil (c : Scope) (s t : State) : Read c s ([] : List δ) c t :=
  ⟨rfl, .nil c, .nil s t, forall_mem_nil _⟩

theorem Read.cons {x : δ} {xs : List δ} {e : Scope} (hx : Read c s [x] d t) (hxs : Read d t xs e u)
    (hst : s.Leads t) (htu : t.Leads u) : Read c s (x :: xs) e u := by
  have hids : siblingIds (x :: xs) = siblingIds [x] ++ siblingIds xs := by
    simp [siblingIds]
  obtain ⟨hwords, hin⟩ := hx.records [] x [] rfl
  refine ⟨?_, .cons hwords hin (hx.scope ▸ hxs.records), hids ▸ hx.fresh.append hxs.fresh hst htu,
    forall_mem_cons.mpr ⟨hx.placed x (mem_singleton_self x), hxs.placed⟩⟩
  rw [c.behind_cons, ← hx.scope]
  exact hxs.scope

theorem Read.single {x : δ} (hd : d = c.behind [x])
    (hx : ∀ words ∈ recorded? x, words = c.block ++ c.pending) (hin : Inside x)
    (hids : Fresh s t (siblingIds [x])) (hplaced : (Sibling.outline x).Placed) : Read c s [x] d t :=
  ⟨hd, .cons hx hin (.nil _), hids, forall_mem_singleton.mpr hplaced⟩

/-- A declaration that records nothing and has nothing inside. -/
theorem Read.leaf {x : δ} (hd : d = c.behind [x]) (hx : recorded? x = none) (hin : Inside x)
    (hids : siblingIds [x] = []) (hplaced : (Sibling.outline x).Placed) : Read c s [x] d t :=
  .single hd (by simp [hx]) hin (hids ▸ .nil s t) hplaced

theorem gives_modifiers {block list : Mark → List String → δ}
    (hblock : ∀ m words t, Read c s [block m words] ⟨words, []⟩ t)
    (hlist : ∀ m words t, Read c s [list m words] { c with pending := words } t) :
    Gives (modifiers block list c) s fun r t => Read c s [r.1] r.2 t := by
  refine .skip fun pos => .skip fun first => .skip fun rest => .skip fun colon => ?_
  split
  · exact .mark fun m t _ _ => hblock m _ t
  · exact .mark fun m t _ _ => hlist m _ t

theorem gives_methodRest {words : List String} {result : Ty} :
    Gives (methodRest pos words result name) s fun m t =>
      m.modifiers = words ∧ Fresh s t [m.mark.id] ∧ Outline.AllPlaced (Outline.ofStmts m.body) := by
  refine .skip fun generics => .skip fun paren => .skip fun params => ?_
  exact .known placed_body fun body hbody => .mark fun m t hst h => ⟨rfl, h, hbody⟩

theorem placed_fieldEntry : Yields (fieldEntry name) fun e => ∀ x ∈ e.value, x.Placed := by
  refine .skip fun assigns => ?_
  split
  · refine .skip fun sign => placed_expr.bind fun x hx => .pure fun y hy => ?_
    exact Option.some.inj hy ▸ hx
  · exact .pure (by simp)

theorem gives_fieldRest {result : Ty} :
    Gives (fieldRest pos c.effective name result) s fun m t => Read c s [m] c.spent t := by
  unfold fieldRest
  split
  · refine .known placed_fieldEntry fun e he => ?_
    refine .known (.many (.skip fun name => placed_fieldEntry)) fun es hes => ?_
    refine .skip fun semicolon => .mark fun m t hst h => ?_
    refine .single rfl (by simp [recorded?, Scope.effective]) trivial (.nil ..) ⟨trivial, ?_⟩
    refine Outline.allPlaced_iff.mpr fun o ho => ?_
    obtain ⟨e', he', ho⟩ := mem_filterMap.mp ho
    obtain ⟨x, hx, rfl⟩ := Option.map_eq_some_iff.mp ho
    exact forall_mem_cons.mpr ⟨he, hes⟩ e' he' x hx
  · exact .fail

theorem gives_member : Gives (member c) s fun r t => Read c s [r.1] r.2 t := by
  refine .skip fun b => ?_
  split
  · exact gives_modifiers (fun _ _ _ => .leaf rfl rfl trivial rfl ⟨trivial, trivial⟩)
      fun _ _ _ => .leaf rfl rfl trivial rfl ⟨trivial, trivial⟩
  refine .skip fun pos => .skip fun result => .skip fun name => .skip fun t => ?_
  split
  · exact gives_methodRest.map fun m t _ h =>
      .single rfl (by simp [recorded?, h.1, Scope.effective]) trivial h.2.1 ⟨trivial, h.2.2⟩
  · exact gives_fieldRest.map fun _ _ _ h => h

theorem gives_membersUpTo :
    ∀ n c s, Gives (membersUpTo name n c) s fun r t => Read c s r.1 r.2 t
  | 0, _, _ => fun _ _ _ _ h => nomatch h
  | n + 1, c, s => by
    refine .skip fun closed => ?_
    split
    · exact .pure fun t _ => .nil c s t
    refine .skip fun semicolon => ?_
    split
    · exact gives_membersUpTo n c s
    refine .skip fun t => ?_
    split
    · exact .fail
    refine gives_member.bind fun m t hst hm => (gives_membersUpTo n m.2 t).map ?_
    exact fun ms u htu hms => hm.cons hms hst htu

theorem flatMap_methods : ∀ ms : List Member,
    ms.flatMap Sibling.methods = ms.filterMap Member.method?
  | [] => rfl
  | m :: ms => by
    rw [flatMap_cons, flatMap_methods ms]
    cases m <;> rfl

theorem gives_classDecl : Gives (classDecl c) s fun r t => Read c s [r.1] r.2 t := by
  refine .skip fun pos => .skip fun _ => .skip fun name => .skip fun _ => .skip fun _ => ?_
  refine Gives.bind (P := fun r t => Read {} s r.1 r.2 t) (.skip fun u => gives_membersUpTo _ {} s)
    fun ms t hst hms => .mark fun m u htu _ => .single ?_ (by simp [recorded?, Scope.effective])
      hms.records ?_ ⟨trivial, Outline.allPlaced_iff.mpr (forall_mem_map.mpr hms.placed)⟩
  · rw [hms.scope]
    rfl
  · have h := hms.fresh.append (.nil t u) hst htu
    rw [append_nil, siblingIds, flatMap_methods] at h
    simpa [siblingIds, Sibling.methods, Decl.methods] using h

theorem gives_method : Gives (method c) s fun r t => Read c s [r.1] r.2 t := by
  refine .skip fun pos => .skip fun result => .skip fun name => .skip fun assigns => .skip fun next => ?_
  split
  · exact .fail
  · exact gives_methodRest.map fun m t _ h =>
      .single rfl (by simp [recorded?, h.1, Scope.effective]) trivial h.2.1 ⟨trivial, h.2.2⟩

theorem gives_directive {t : Token} : Gives (directive t) s fun x => Read c s [x] c := by
  have hrest (make : Mark → String → Decl) (hmake : ∀ m name u, Read c s [make m name] c u) (pos : Pos) :
      Gives (do
        skip 1
        let word ← want .string
        let _ ← want .semicolon
        return make (← mark pos) word.text) s fun x => Read c s [x] c :=
    .skip fun _ => .skip fun word => .skip fun _ => .mark fun m u _ _ => hmake m word.text u
  refine .skip fun pos => ?_
  split
  · exact hrest .package (fun _ _ _ => .leaf rfl rfl trivial rfl ⟨trivial, trivial⟩) pos
  split
  · exact hrest .importing (fun _ _ _ => .leaf rfl rfl trivial rfl ⟨trivial, trivial⟩) pos
  split
  · exact hrest .using (fun _ _ _ => .leaf rfl rfl trivial rfl ⟨trivial, trivial⟩) pos
  · exact .bind (P := fun _ _ => False) .fail fun _ _ _ h => h.elim

theorem gives_declaration {t : Token} :
    Gives (declaration t c) s fun r u => Read c s [r.1] r.2 u := by
  unfold declaration
  split
  next => exact .fail
  next => exact gives_directive.map fun _ _ _ h => h
  next =>
    exact gives_modifiers (fun _ _ _ => .leaf rfl rfl trivial rfl ⟨trivial, trivial⟩)
      fun _ _ _ => .leaf rfl rfl trivial rfl ⟨trivial, trivial⟩
  next =>
    split
    · exact gives_classDecl
    · exact .fail
  next => exact gives_method
  next => exact gives_method
  next => exact gives_method
  next => exact .fail

theorem gives_decl : Gives (decl c) s fun r t =>
    ∀ x d, r = some (x, d) → Read c s [x] d t := by
  refine .skip fun _ => .skip fun t => ?_
  split
  · exact .pure fun _ _ => nofun
  · exact gives_declaration.map fun r t _ h x d heq => by cases heq; exact h

theorem read_upTo : ∀ n c s, ∃ d t, Read c s (Session.upTo n (.reading c s)).1 d t ∧ s.Leads t
  | 0, c, s => ⟨c, s, .nil c s s, .refl s⟩
  | n + 1, c, s => by
    rw [Session.upTo, Session.next]
    cases h : (decl c).run s with
    | error e => exact ⟨c, s, .nil c s s, .refl s⟩
    | ok r =>
      obtain ⟨_ | ⟨x, d⟩, next⟩ := r
      · exact ⟨c, s, .nil c s s, .refl s⟩
      · obtain ⟨e, u, hread, hleads⟩ := read_upTo n d next
        have hx := gives_decl s _ next (.refl s) h x d rfl
        have hnext := (decl c).leads h
        exact ⟨e, u, hx.cons hread hnext hleads, hnext.trans hleads⟩

end Parser

open Parser

/-- What is known of the declarations of a unit, also if reading them ends with an error. -/
theorem parseTokens_read (file : String) (tokens : List Token) : ∃ d t,
    Read {} { file := file, tokens := tokens } (parseTokens file tokens).decls d t := by
  obtain ⟨d, t, h, -⟩ := read_upTo (tokens.length + 1) {} { file := file, tokens := tokens }
  exact ⟨d, t, h⟩

theorem SourceUnit.nodup_methodIds_of_read {number : Nat} {file : String} {source : List Char}
    {u : SourceUnit} (h : SourceUnit.read number file source = .ok u) :
    (Parser.siblingIds u.decls).Nodup := by
  unfold SourceUnit.read at h
  split at h
  next => cases h
  next tokens htokens =>
    simp only at h
    split at h
    next => cases h
    next =>
      cases h
      obtain ⟨d, t, hread⟩ := parseTokens_read file (Token.layout tokens)
      exact hread.fresh.apart

/-- Every declaration of a unit records the modifiers that wait in front of it, and so does every
member of a class among the members. -/
theorem parseTokens_records (file : String) (tokens : List Token) :
    Records {} (parseTokens file tokens).decls := by
  obtain ⟨d, t, hread⟩ := parseTokens_read file tokens
  exact hread.records

/-- A list at the end of a class body waits for the method behind the class. -/
theorem parseTokens_listAtEnd :
    (parseTokens "a.vs" (Token.layout (Token.scan
      "class A \x7b public \x7d\nint f() \x7b \x7d".toList).tokens)).decls.map recorded? =
        [some [], some ["public"]] := by
  decide +kernel

/-- All nodes of a unit are in place, and so are those of an expression that is read alone. -/
theorem parseTokens_placed (file : String) (tokens : List Token) :
    (∀ d ∈ (parseTokens file tokens).decls, (Outline.ofDecl d).Placed) ∧
      ∀ s e t, Parser.expr.run s = .ok (e, t) → (Outline.ofExpr e).Placed := by
  obtain ⟨d, t, hread⟩ := parseTokens_read file tokens
  exact ⟨hread.placed, placed_expr⟩

/-- A chain whose first operator binds before the second one. -/
def Parser.productFirst : State :=
  ⟨"a.vs", (Token.scan "a * b + c".toList).tokens, false, 0⟩

theorem parseTokens_placed_productFirst :
    ∃ e t, Parser.expr.run productFirst = .ok (e, t) ∧ (Outline.ofExpr e).Placed := by
  have hok : (Parser.expr.run productFirst).isOk := by decide +kernel
  cases h : Parser.expr.run productFirst with
  | error => simp [h, Except.isOk, Except.toBool] at hok
  | ok r => exact ⟨r.1, r.2, rfl, (parseTokens_placed "a.vs" []).2 productFirst r.1 r.2 h⟩

/-- The sum is the outer operation, and it stands at `b`, not at its first operand `a`. -/
theorem Parser.expr_productFirst :
    ((Parser.expr.run productFirst).toOption.map fun r => (r.1.pos, r.1.first.pos)) =
      some (⟨"a.vs", 1, 5⟩, ⟨"a.vs", 1, 1⟩) := by
  decide +kernel

end SsaCompiler
