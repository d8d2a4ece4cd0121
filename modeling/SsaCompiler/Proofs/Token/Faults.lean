import SsaCompiler.Proofs.Token.Places

/-!
# Places of lexical errors

A scan that fails ends with an unexpected token, which starts inside the source and says its line and
column. It need not end there. Two rules take one more character when they already know that there is a
fault, and count it though the source has none: the one for numbers in another base, and the one for
escapes. So the end of a failed scan may lie one character behind the source, but never more, and only
for these two faults (`Fault.excess`).
-/

namespace SsaCompiler.Token

variable {source : List Char} {c : Cursor} {fault : Fault} {s : Span}

/-- The place of a fault: it starts inside the source, and may end a bit behind it. -/
structure FaultAt (source : List Char) (fault : Fault) (s : Span) : Prop where
  inside : s.start < source.length
  holds : s.start < s.stop
  stop : s.stop ≤ source.length + fault.excess
  line : s.line = 1 + (source.take s.start).count '\n'
  lineStart : IsLineStart source s.start s.lineStart

/-- A scan that fails ends with the fault. -/
structure FailsWith (source : List Char) (fault : Fault) (s : Span) (r : Scan) : Prop where
  place : FaultAt source fault s
  last : r.tokens.getLast? = some ⟨.unexpected, "", s⟩
  stop : r.stop.span 0 = { s with start := s.stop }

theorem FailsWith.after {r : Scan} (h : FailsWith source fault s r) (ts : List Token) :
    FailsWith source fault s (r.after ts) :=
  ⟨h.place, by simp [Scan.after, List.getLast?_append, h.last], h.stop⟩

theorem failsWith_scanFrom (h : c.At source) (hfault : (scanFrom c).fault = some (fault, s)) :
    FailsWith source fault s (scanFrom c) := by
  fun_induction scanFrom c with
  | case1 => cases hfault
  | case2 start c ch rest hrest hch ih =>
    obtain rfl : ch = '\n' := by simpa using hch
    exact (ih (h.skipBlanks.newline hrest) hfault).after _
  | case3 start c ch rest hrest _ hopen ih =>
    obtain ⟨more, rfl, rfl⟩ := exists_of_opens hopen
    exact (ih (h.skipBlanks.lineComment hrest) hfault).after _
  | case4 start c ch rest hrest _ _ hopen ih =>
    obtain ⟨more, rfl, rfl⟩ := exists_of_opens hopen
    exact (ih (h.skipBlanks.blockComment hrest) hfault).after _
  | case5 start c ch rest hrest hch _ _ kind text tail hlex ih =>
    have hmove : Clean c.rest (tail + 1) := by
      rw [hrest]
      exact .cons (by simpa using hch) ((Scanner.isClean_lexeme ch rest).token _ _ _ hlex).2
    exact (ih (h.skipBlanks.move hmove) hfault).after _
  | case6 start c ch rest hrest _ _ _ found tail hlex =>
    cases hfault
    have hc : c.At source := h.skipBlanks
    have htail := (Scanner.isClean_lexeme ch rest).faulty _ _ hlex
    have hlength : source.length = c.offset + (rest.length + 1) := by
      have := congrArg List.length (hc.rest.symm.trans hrest)
      rw [List.length_drop, List.length_cons] at this
      omega
    refine ⟨⟨?_, ?_, ?_, hc.line, hc.lineStart⟩, rfl, rfl⟩ <;> simp only [Cursor.span] <;> omega

/-- If a scan fails, its last token and no other one is unexpected. This token starts inside the source
and says its line, the one error has its position, and whatever is asked for later is the end, found
where the token ends. That is inside the source or, for a malformed number in another base and for an
escape without a character, one character behind it. -/
theorem scan_error (file : String) (source : List Char) (e : LexError)
    (h : (scan source).error? file = some e) : tokenize file source = .error e ∧ ∃ front s,
      (scan source).tokens = front ++ [⟨.unexpected, "", s⟩] ∧
      (∀ t ∈ front, t.kind ≠ .finish ∧ t.kind ≠ .unexpected) ∧
      FaultAt source e.fault s ∧ e.pos = s.pos file ∧
      (scan source).beyond = ⟨.finish, "", { s with start := s.stop }⟩ := by
  refine ⟨by simp [tokenize, h], ?_⟩
  obtain ⟨⟨fault, s⟩, hfault, rfl⟩ := Option.map_eq_some_iff.mp h
  have hfails := failsWith_scanFrom (.start source) hfault
  obtain ⟨front, last, htokens, -, hfront⟩ := (laid_scanFrom (.start source)).sequence.ends
  have hlast := hfails.last
  rw [htokens, List.getLast?_concat, Option.some.injEq] at hlast
  rw [hlast] at htokens
  exact ⟨front, s, htokens, hfront, hfails.place, rfl, congrArg (Token.mk .finish "") hfails.stop⟩

theorem scan_error_bareMark : ∃ front s,
    (scan "0x".toList).tokens = front ++ [⟨.unexpected, "", s⟩] ∧ s.stop ≤ 3 := by
  obtain ⟨-, front, s, htokens, -, hplace, -⟩ := scan_error "a.vs" "0x".toList
    ⟨⟨"a.vs", 1, 1⟩, .malformedRadix .hexadecimal⟩ (by decide +kernel)
  exact ⟨front, s, htokens, hplace.stop⟩

/-- The mark of a hexadecimal number alone: the token and the end behind it count three characters,
though the source has two. -/
theorem scan_bareMark : "0x".toList.length = 2 ∧
    (scan "0x".toList).tokens = [⟨.unexpected, "", ⟨0, 3, 0, 1⟩⟩] ∧
    (scan "0x".toList).beyond = ⟨.finish, "", ⟨3, 3, 0, 1⟩⟩ := by
  decide +kernel

end SsaCompiler.Token
