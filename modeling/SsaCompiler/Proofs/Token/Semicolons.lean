import Mathlib.Data.List.Chain
import SsaCompiler.Proofs.Token.Places
import SsaCompiler.Token.Layout

/-!
# Where semicolons are inserted

Behind a token that may end a statement, a semicolon is inserted at the end of the source, and at the
end of a line unless the next token continues it. `Layout.run` finds this out from the tokens that it
has kept and from those to come. Here is the rule as one condition on what stands in front of a token
and behind it, and the layout of a source without comments is what the rule says.
-/

namespace SsaCompiler.Token

open List

variable {ts : List Token}

/-- Whether the token is no line end. -/
def isKept (t : Token) : Bool :=
  t.kind != .newline

/-- Whether the token, behind the given one, may end a statement: a name, a literal, a word that
stands alone, a closing bracket, or the second character of a postfix operator. -/
def EndsStatement (before : Option Token) (t : Token) : Prop :=
  t.kind = .identifier ∨ t.kind.isLiteral ∨
    t.kind = .keyword ∧ t.text ∈ ["break", "continue", "return"] ∨
    t.kind ∈ [.parenClose, .bracketClose, .braceClose] ∨
    ∃ p ∈ before, ∃ sign ∈ ["+", "-"], p.isOp sign ∧ t.isOp sign ∧
      p.span.stop = t.span.start

/-- Whether the token goes on with the line before. -/
def Continues (t : Token) : Prop :=
  t.kind = .operator ∧ t.text ∈ "=+-*/<>?!^&~$.%|".toList.map Char.toString ∨
    t.is .keyword "where"

/-- A statement ends in front of the tokens: the source ends, or a line does and the next token does
not go on with it. -/
def EndsBefore (after : List Token) : Prop :=
  ∃ u ∈ after.find? isKept, u.kind = .finish ∨
    (after.head?.any fun n => n.kind == .newline) = true ∧ ¬ Continues u

/-- A semicolon is inserted behind the token. -/
def Closes (before : List Token) (t : Token) (after : List Token) : Prop :=
  EndsStatement (before.reverse.find? isKept) t ∧ EndsBefore after

instance (before : Option Token) (t : Token) : Decidable (EndsStatement before t) :=
  inferInstanceAs (Decidable (_ ∨ _))

instance (t : Token) : Decidable (Continues t) :=
  inferInstanceAs (Decidable (_ ∨ _))

instance (after : List Token) : Decidable (EndsBefore after) :=
  inferInstanceAs (Decidable (∃ u ∈ after.find? isKept, _))

instance (before : List Token) (t : Token) (after : List Token) : Decidable (Closes before t after) :=
  inferInstanceAs (Decidable (_ ∧ _))

/-- What becomes of a token between others. -/
def placed (before : List Token) (t : Token) (after : List Token) : List Token :=
  if t.isKept then if Closes before t after then [t, Layout.semicolonAfter t] else [t] else []

/-- What becomes of tokens behind others. -/
def placedAll (before ts : List Token) : List Token :=
  (ts.mapIdx fun i t => placed (before ++ ts.take i) t (ts.drop (i + 1))).flatten

theorem placedAll_cons (before : List Token) (t : Token) (rest : List Token) :
    placedAll before (t :: rest) = placed before t rest ++ placedAll (before ++ [t]) rest := by
  simp [placedAll, mapIdx_cons]

/-- Whether no token opens a comment together with the next one. -/
def NoComments (ts : List Token) : Prop :=
  ts.IsChain fun t u => t.touching u "/" "/" = false ∧ t.touching u "/" "*" = false

instance (ts : List Token) : Decidable (NoComments ts) :=
  inferInstanceAs (Decidable (ts.IsChain _))

namespace Layout

variable {r : Recent} {t p : Token} {before rest : List Token} {u : Token}

theorem mayEnd_iff (t : Token) : mayEnd t ↔ t.kind = .identifier ∨ t.kind.isLiteral ∨
    t.kind = .keyword ∧ t.text ∈ ["break", "continue", "return"] ∨
    t.kind ∈ [.parenClose, .bracketClose, .braceClose] := by
  unfold mayEnd
  cases t.kind <;> simp [Kind.isLiteral, Kind.isNumber]

theorem continues_iff (t : Token) : continues t ↔ Continues t := by
  unfold continues Continues Token.is
  cases t.kind <;> simp

theorem touching_iff (hp : p.kind = .operator → p.span.isValid)
    (ht : t.kind = .operator → t.span.isValid) (x y : String) :
    p.touching t x y ↔ p.isOp x ∧ t.isOp y ∧ p.span.stop = t.span.start := by
  unfold touching isOp Token.is
  grind

theorem mayEnd_push (hlast : ∀ p ∈ r.last, p.kind = .operator → p.span.isValid)
    (ht : t.kind = .operator → t.span.isValid) : (r.push t).mayEnd ↔ EndsStatement r.last t := by
  unfold Recent.mayEnd Recent.push EndsStatement
  cases hp : r.last with
  | none => simp [mayEnd_iff]
  | some p =>
    have htouch := touching_iff (hlast p hp) ht
    simp only [Bool.or_eq_true, mayEnd_iff, Option.any_some, Bool.and_eq_true, htouch]
    grind

/-- The second character of a postfix operator would go on with the line before. -/
theorem endsStatement_congr (ht : ¬ Continues t) (before before' : Option Token) :
    EndsStatement before t ↔ EndsStatement before' t := by
  have hsign : ∀ o : Option Token, ¬ ∃ p ∈ o, ∃ sign ∈ ["+", "-"], p.isOp sign ∧
      t.isOp sign ∧ p.span.stop = t.span.start := by
    rintro o ⟨p, -, sign, hsign, -, hop, -⟩
    simp only [isOp, Token.is, Bool.and_eq_true, beq_iff_eq] at hop
    have hmem : ∀ sign ∈ ["+", "-"], sign ∈ "=+-*/<>?!^&~$.%|".toList.map Char.toString := by decide
    exact ht (.inl ⟨hop.1, hop.2 ▸ hmem sign hsign⟩)
  simp only [EndsStatement, hsign, or_false]

/-- The semicolon that is still to be inserted behind the tokens kept so far. -/
def pending (r : Recent) (ts : List Token) : List Token :=
  if EndsBefore ts then r.semicolon?.toList else []

theorem pending_of (h : EndsBefore ts) : pending r ts = r.semicolon?.toList :=
  if_pos h

theorem pending_of_not (h : ¬ EndsBefore ts) : pending r ts = [] :=
  if_neg h

theorem pending_of_none (h : r.semicolon? = none) : pending r ts = [] := by
  rw [pending, h]
  exact ite_self _

/-- A token that is kept is followed by its semicolon, if there is one. -/
theorem cons_pending (hkept : t.isKept)
    (hmayEnd : (r.push t).mayEnd ↔ EndsStatement (before.reverse.find? isKept) t) :
    t :: pending (r.push t) rest = placed before t rest := by
  have hsemicolon : (r.push t).semicolon? = if EndsStatement (before.reverse.find? isKept) t then
      some (semicolonAfter t) else none := by
    simp only [Recent.semicolon?, hmayEnd]
    rfl
  rw [pending, placed, if_pos hkept, hsemicolon]
  unfold Closes
  by_cases hends : EndsStatement (before.reverse.find? isKept) t <;>
    by_cases hbefore : EndsBefore rest <;> simp [hends, hbefore]

/-- The tokens kept so far end as the tokens before, or with a semicolon that was inserted at the end
of a line because the next token does not go on with it. -/
def Follows (before : List Token) (r : Recent) (ts : List Token) : Prop :=
  r.last = before.reverse.find? isKept ∨
    (∀ s ∈ r.last, s.kind = .semicolon) ∧ ∀ u ∈ ts.find? isKept, ¬ Continues u

theorem semicolon?_push_of_kind (h : t.kind ∈ [.semicolon, .finish]) :
    (r.push t).semicolon? = none := by
  simp only [mem_cons, not_mem_nil, or_false] at h
  rcases h with h | h <;>
    simp [Recent.semicolon?, Recent.mayEnd, Recent.push, mayEnd, isOp, Token.is, h]

theorem kind_of_semicolon? {s : Token} (h : r.semicolon? = some s) : s.kind = .semicolon := by
  unfold Recent.semicolon? at h
  split at h
  · obtain ⟨t, -, rfl⟩ := Option.map_eq_some_iff.mp h
    rfl
  · cases h

theorem endsBefore_newline (ht : t.kind = .newline) (hu : rest.find? isKept = some u) :
    EndsBefore (t :: rest) ↔ ¬ Continues u := by
  have hfinish : u.kind = .finish → ¬ Continues u := fun h => by simp [Continues, Token.is, h]
  simpa [EndsBefore, isKept, ht, hu] using hfinish

theorem not_endsBefore (hu : ts.find? isKept = some u) (h : Continues u) :
    ¬ EndsBefore ts := by
  have hfinish : u.kind ≠ .finish := fun heq => by simp [Continues, Token.is, heq] at h
  simp [EndsBefore, hu, hfinish, h]

/-- Whether a token may end a statement does not depend on semicolons that were inserted. -/
theorem Follows.mayEnd_push (h : Follows before r (t :: rest)) (hkept : t.isKept)
    (hts : ∀ u ∈ before ++ t :: rest, u.kind = .operator → u.span.isValid) :
    (r.push t).mayEnd ↔ EndsStatement (before.reverse.find? isKept) t := by
  have ht := hts t (mem_append_right _ mem_cons_self)
  rcases h with h | ⟨hsemicolon, hnext⟩
  · rw [← h]
    refine Layout.mayEnd_push (fun p hp => hts p (mem_append_left _ ?_)) ht
    exact mem_reverse.mp (mem_of_find?_eq_some (h ▸ hp))
  · refine (Layout.mayEnd_push (fun p hp hop => ?_) ht).trans (endsStatement_congr (hnext t ?_) ..)
    · rw [hsemicolon p hp] at hop
      cases hop
    · simp [hkept]

/-- What the layout from some place on is to be: a semicolon that is due comes first, and then what the
rule makes of the tokens. -/
def LaidOut (before : List Token) (ts : List Token) : Prop :=
  ∀ r, Follows before r ts → run r ts = pending r ts ++ placedAll before ts

section

variable (ih : LaidOut (before ++ [t]) rest)

include ih

theorem run_newline (ht : t.kind = .newline) (hu : rest.find? isKept = some u)
    (h : Follows before r (t :: rest)) :
    (if continues u then run r rest else
      match r.semicolon? with
      | some s => s :: run (r.push s) rest
      | none => run r rest) = pending r (t :: rest) ++ placedAll before (t :: rest) := by
  have hplaced : placed before t rest = [] := by simp [placed, isKept, ht]
  have hstay : Follows (before ++ [t]) r rest := by simpa [Follows, isKept, ht] using h
  rw [placedAll_cons, hplaced, nil_append]
  cases hc : continues u with
  | true =>
    have hc := (continues_iff u).mp hc
    have hnot : ¬ EndsBefore (t :: rest) := by
      rw [endsBefore_newline ht hu]
      exact not_not_intro hc
    rw [if_pos rfl, ih r hstay, pending_of_not (not_endsBefore hu hc), pending_of_not hnot]
  | false =>
    have hc : ¬ Continues u := by
      rw [← continues_iff, hc]
      exact Bool.false_ne_true
    rw [if_neg Bool.false_ne_true, pending_of ((endsBefore_newline ht hu).mpr hc)]
    cases hs : r.semicolon? with
    | none => exact (ih r hstay).trans (by rw [pending_of_none hs]; rfl)
    | some s =>
      have hkind := kind_of_semicolon? hs
      have hpush : Follows (before ++ [t]) (r.push s) rest :=
        .inr ⟨by simpa [Recent.push] using hkind, by simpa [hu] using hc⟩
      exact congrArg (s :: ·) ((ih _ hpush).trans
        (by rw [pending_of_none (semicolon?_push_of_kind (by simp [hkind]))]; rfl))

theorem run_push (hkept : t.isKept) :
    run (r.push t) rest = pending (r.push t) rest ++ placedAll (before ++ [t]) rest :=
  ih _ (.inl (by simp [hkept, Recent.push]))

theorem run_finish (ht : t.kind = .finish) :
    (match r.semicolon? with
      | some s => s :: t :: run ((r.push s).push t) rest
      | none => t :: run (r.push t) rest) = pending r (t :: rest) ++ placedAll before (t :: rest) := by
  have hkept : t.isKept := by simp [isKept, ht]
  have hplaced : placed before t rest = [t] := by
    simp [placed, isKept, ht, Closes, EndsStatement, isOp, Token.is, Kind.isLiteral, Kind.isNumber]
  have hends : EndsBefore (t :: rest) := by simp [EndsBefore, hkept, ht]
  have hrun : ∀ r : Recent, run (r.push t) rest = placedAll (before ++ [t]) rest := fun r => by
    rw [run_push ih hkept, pending_of_none (semicolon?_push_of_kind (by simp [ht]))]
    rfl
  rw [placedAll_cons, hplaced, pending_of hends]
  cases r.semicolon? with
  | none => simp [hrun]
  | some s => simp [hrun]

theorem run_kept (hkind : t.kind ≠ .newline ∧ t.kind ≠ .finish)
    (hmayEnd : (r.push t).mayEnd ↔ EndsStatement (before.reverse.find? isKept) t) :
    t :: run (r.push t) rest = pending r (t :: rest) ++ placedAll before (t :: rest) := by
  have hkept : t.isKept := by simp [isKept, hkind]
  have hnot : ¬ EndsBefore (t :: rest) := by simp [EndsBefore, hkept, hkind]
  rw [run_push ih hkept, pending_of_not hnot, placedAll_cons, ← cons_pending hkept hmayEnd]
  rfl

end

/-- Some token comes behind a line end. -/
theorem exists_kept (ht : t.kind = .newline) (hend : ∀ u ∈ (t :: rest).getLast?, u.isKept) :
    ∃ u, rest.find? isKept = some u := by
  have hlast := hend _ (List.getLast?_eq_some_getLast (cons_ne_nil t rest))
  have hmem : (t :: rest).getLast (cons_ne_nil t rest) ∈ rest := by
    refine (mem_cons.mp (getLast_mem _)).resolve_left fun heq => ?_
    simp [heq, isKept, ht] at hlast
  exact Option.isSome_iff_exists.mp (List.find?_isSome.mpr ⟨_, hmem, hlast⟩)

theorem run_eq (hend : ∀ t ∈ ts.getLast?, t.isKept) (hbare : NoComments ts)
    (hts : ∀ t ∈ before ++ ts, t.kind = .operator → t.span.isValid) : LaidOut before ts := by
  induction ts generalizing before with
  | nil =>
    intro r _
    rw [run]
    simp [pending, EndsBefore, placedAll]
  | cons t rest ih =>
    intro r h
    have hno : (rest.head?.any fun u => t.touching u "/" "/") = false ∧
        (rest.head?.any fun u => t.touching u "/" "*") = false := by
      cases rest with
      | nil => exact ⟨rfl, rfl⟩
      | cons u rest => exact (isChain_cons_cons.mp hbare).1
    have hrest : ∀ u ∈ rest.getLast?, u.isKept := by
      cases rest with
      | nil => simp
      | cons u rest => simpa using hend
    have ih := @ih (before ++ [t]) hrest hbare.tail (by simpa using hts)
    rw [run, hno.1, hno.2]
    simp only [Bool.false_eq_true, if_false, beq_iff_eq]
    split
    next hline =>
      obtain ⟨u, hu⟩ := exists_kept hline hend
      rw [show significant rest = u from congrArg (Option.getD · _) hu]
      exact run_newline ih hline hu h
    next hline =>
      split
      next hfinish => exact run_finish ih hfinish
      next hfinish =>
        exact run_kept ih ⟨hline, hfinish⟩ (h.mayEnd_push (by simpa [isKept] using hline) hts)

end Layout

/-- Whether the token is a semicolon that was inserted. -/
def isAuto (t : Token) : Bool :=
  t.is .semicolon Layout.autoText

/-- No semicolon of a source looks like one that was inserted. -/
theorem isAuto_scanFrom (c : Cursor) : ∀ t ∈ (scanFrom c).tokens, t.isAuto = false := by
  have hkind : ∀ t : Token, t.kind ≠ .semicolon → t.isAuto = false := fun t h => by
    simp [isAuto, Token.is, h]
  have hafter : ∀ {ts : List Token} {s : Scan}, (∀ t ∈ ts, t.kind ≠ .semicolon) →
      (∀ t ∈ s.tokens, t.isAuto = false) → ∀ t ∈ (s.after ts).tokens, t.isAuto = false :=
    fun h hs => forall_mem_append.mpr ⟨fun t ht => hkind t (h t ht), hs⟩
  fun_induction scanFrom c with
  | case1 => simp [hkind]
  | case2 start c ch rest hrest hch ih => exact hafter (by simp) ih
  | case3 start c ch rest hrest _ hopen ih =>
    exact hafter (by simp [Scanner.lineComment, Cursor.operator]) ih
  | case4 start c ch rest hrest _ _ hopen ih =>
    refine hafter ?_ ih
    unfold Scanner.blockComment
    dsimp only
    split <;> simp [Cursor.operator]
  | case5 start c ch rest hrest hch _ _ kind text tail hlex ih =>
    refine forall_mem_cons.mpr ⟨?_, ih⟩
    rcases ((Scanner.isClean_lexeme ch rest).token kind text tail hlex).1 with h | ⟨rfl, rfl⟩
    · exact hkind _ (by simpa [Scanner.isOrdinary] using h : _ ∧ _).2
    · rfl
  | case6 => simp [hkind]

/-- Behind a semicolon that was inserted comes a token of the source. -/
theorem isChain_placedAll (before : List Token) (hts : ∀ t ∈ ts, t.isAuto = false) :
    (∀ t ∈ placedAll before ts, t.isKept) ∧ (∀ t ∈ (placedAll before ts).head?, t.isAuto = false) ∧
    (placedAll before ts).IsChain fun t u => ¬ (t.isAuto ∧ u.isAuto) := by
  induction ts generalizing before with
  | nil => simp [placedAll]
  | cons t rest ih =>
    obtain ⟨ht, hrest⟩ := forall_mem_cons.mp hts
    obtain ⟨hkept, hhead, hchain⟩ := ih (before ++ [t]) hrest
    rw [placedAll_cons, placed]
    split
    next hkeep =>
      split
      · have hsemicolon : (Layout.semicolonAfter t).isKept := rfl
        refine ⟨by simpa [hkeep, hsemicolon] using hkept, by simpa using ht, ?_⟩
        refine .cons_cons (by simp [ht]) (hchain.cons fun u hu => ?_)
        simp [hhead u hu]
      · refine ⟨by simpa [hkeep] using hkept, by simpa using ht, hchain.cons fun u _ => ?_⟩
        simp [ht]
    next => exact ⟨hkept, hhead, hchain⟩

theorem layout_eq_placed (source : List Char) (h : NoComments (scan source).tokens) :
    layout (scan source).tokens = ((scan source).tokens.mapIdx fun i t =>
      placed ((scan source).tokens.take i) t ((scan source).tokens.drop (i + 1))).flatten ∧
    (∀ t ∈ layout (scan source).tokens, t.kind ≠ .newline) ∧
    (layout (scan source).tokens).IsChain fun t u => ¬ (t.isAuto = true ∧ u.isAuto = true) := by
  have hsequence := (laid_scanFrom (.start source)).sequence
  have hvalid : ∀ t ∈ [] ++ (scan source).tokens, t.kind = .operator → t.span.isValid := by
    intro t ht hop
    obtain ⟨-, hplaced⟩ := hsequence.placed t ht (by simp [hasPlace, hop])
    refine decide_eq_true ?_
    rw [hplaced.exact.line]
    omega
  have hend : ∀ t ∈ (scan source).tokens.getLast?, t.isKept := by
    obtain ⟨front, last, hall, hlast, -⟩ := hsequence.ends
    show ∀ t ∈ (scanFrom (.start source)).tokens.getLast?, _
    rw [hall]
    rcases hlast with hlast | hlast <;> simp [isKept, hlast]
  have heq := Layout.run_eq hend h hvalid {} (.inl rfl)
  have hpending : Layout.pending {} (scan source).tokens = [] := Layout.pending_of_none rfl
  rw [hpending, nil_append] at heq
  obtain ⟨hkept, -, hchain⟩ := isChain_placedAll [] (isAuto_scanFrom (.start source))
  refine ⟨heq, ?_, ?_⟩
  · intro t ht
    rw [layout, heq] at ht
    simpa [isKept] using hkept t ht
  · rw [layout, heq]
    exact hchain

/-- A postfix operator at the end of a line, and a line that is gone on with. -/
theorem layout_eq_placed_postfix : NoComments (scan "x++\n\ny = a\n+ b".toList).tokens ∧
    (layout (scan "x++\n\ny = a\n+ b".toList).tokens).map text =
      ["x", "+", "+", "auto", "y", "=", "a", "+", "b", "auto", ""] := by
  have h : NoComments (scan "x++\n\ny = a\n+ b".toList).tokens := by decide +kernel
  refine ⟨h, ?_⟩
  rw [(layout_eq_placed _ h).1]
  decide +kernel

end SsaCompiler.Token
