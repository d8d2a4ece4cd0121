import SsaCompiler.Token.Scanner

/-!
# Places of tokens

Every token of a scan but a line end says where it was found. The offsets count characters of the
decoded source, the line is counted by the line feeds in front of the token, and nothing but blanks,
line feeds and the text of comments is left out between two tokens.

`Laid` says how the tokens of a scan lie in their source, one constructor for each thing that the
scanner can come by. The scan keeps the cursor in step with the source (`Cursor.At`), so its tokens
are laid (`laid_scanFrom`); what the places of tokens have in common is read off from there.
-/

namespace SsaCompiler

open List

variable {kind : Kind}

/-- The characters of a source from one offset up to another. -/
def between (source : List Char) (start stop : Nat) : List Char :=
  (source.drop start).take (stop - start)

/-- The line of an offset starts just behind the last line feed in front of it, or with the
source. -/
structure IsLineStart (source : List Char) (offset start : Nat) : Prop where
  le : start ≤ offset
  behind : start = 0 ∨ source[start - 1]? = some '\n'
  last : '\n' ∉ between source start offset

/-- A span that ends inside the source and says the line of its start. -/
structure Span.Exact (source : List Char) (s : Span) : Prop where
  stop : s.stop ≤ source.length
  line : s.line = 1 + (source.take s.start).count '\n'
  lineStart : IsLineStart source s.start s.lineStart

namespace Token

/-- Whether tokens of the kind stand for no text of a line. -/
def Kind.isControl : Kind → Bool
  | .newline | .finish | .unexpected => true
  | _ => false

/-! ## Tokens in a source -/

/-- Only blanks stand from one offset up to another. -/
structure Blank (source : List Char) (start stop : Nat) : Prop where
  le : start ≤ stop
  all : ∀ c ∈ between source start stop, Scanner.isBlank c

/-- Two operators next to each other, with the characters that they are. -/
structure Delimiter (source : List Char) (x y : Char) (a b : Token) : Prop where
  first : a.isOp x.toString ∧ source[a.span.start]? = some x ∧
    a.span.stop = a.span.start + 1 ∧ a.span.Exact source
  second : b.isOp y.toString ∧ source[b.span.start]? = some y ∧
    b.span.stop = b.span.start + 1 ∧ b.span.Exact source
  touch : b.span.start = a.span.stop

/-- From one offset up to another there is no end of a block comment. -/
def NoClose (source : List Char) (start stop : Nat) : Prop :=
  ∀ k, start ≤ k → k < stop → ¬ (source[k]? = some '*' ∧ source[k + 1]? = some '/')

/-- How the tokens from an offset on lie in their source: blanks may stand in front of each of them,
and the text of a comment behind its opening delimiter. -/
inductive Laid (source : List Char) : Nat → List Token → Prop where
  | finish {n : Nat} {t : Token} : t.kind = .finish → Blank source n t.span.start →
    t.span.start = source.length → t.span.stop = source.length → t.span.Exact source →
    Laid source n [t]
  | unexpected {n : Nat} {t : Token} : t.kind = .unexpected → Blank source n t.span.start →
    Laid source n [t]
  | newline {n k : Nat} {t : Token} {ts : List Token} : t.kind = .newline → Blank source n k →
    source[k]? = some '\n' → Laid source (k + 1) ts → Laid source n (t :: ts)
  | token {n : Nat} {t : Token} {ts : List Token} : t.kind.isControl = false →
    Blank source n t.span.start → t.span.start < t.span.stop →
    '\n' ∉ between source t.span.start t.span.stop → t.span.Exact source →
    Laid source t.span.stop ts → Laid source n (t :: ts)
  /-- A comment up to the end of its line. -/
  | line {n k : Nat} {a b : Token} {ts : List Token} : Blank source n a.span.start →
    Delimiter source '/' '/' a b → b.span.stop ≤ k → '\n' ∉ between source b.span.stop k →
    k = source.length ∨ source[k]? = some '\n' → Laid source k ts → Laid source n (a :: b :: ts)
  /-- A comment up to its closing delimiter. -/
  | block {n : Nat} {a b c d : Token} {ts : List Token} : Blank source n a.span.start →
    Delimiter source '/' '*' a b → b.span.stop ≤ c.span.start →
    NoClose source b.span.stop c.span.start → Delimiter source '*' '/' c d →
    Laid source d.span.stop ts → Laid source n (a :: b :: c :: d :: ts)
  /-- A comment up to the end of the source. -/
  | openBlock {n : Nat} {a b : Token} {ts : List Token} : Blank source n a.span.start →
    Delimiter source '/' '*' a b → b.span.stop ≤ source.length →
    NoClose source b.span.stop source.length → Laid source source.length ts →
    Laid source n (a :: b :: ts)

/-! ## Lexemes on one line -/

/-- So many characters are there, and no line feed is among them. -/
structure Clean (rest : List Char) (n : Nat) : Prop where
  le : n ≤ rest.length
  no_feed : '\n' ∉ rest.take n

namespace Clean

variable {rest : List Char} {n k : Nat} {c : Char}

theorem zero (rest : List Char) : Clean rest 0 :=
  ⟨Nat.zero_le _, by simp⟩

theorem cons (hc : c ≠ '\n') (h : Clean rest n) : Clean (c :: rest) (n + 1) := by
  refine ⟨Nat.succ_le_succ h.le, ?_⟩
  rw [take_succ_cons, mem_cons]
  rintro (heq | hmem)
  · exact hc heq.symm
  · exact h.no_feed hmem

theorem add (h : Clean rest n) (hk : Clean (rest.drop n) k) : Clean rest (n + k) := by
  have hle := hk.le
  rw [length_drop] at hle
  refine ⟨by have := h.le; omega, ?_⟩
  rw [take_add, mem_append]
  rintro (hmem | hmem)
  · exact h.no_feed hmem
  · exact hk.no_feed hmem

theorem takeWhile {p : Char → Bool} (hp : p '\n' = false) (rest : List Char) :
    Clean rest (rest.takeWhile p).length := by
  have htake := List.takeWhile_prefix p (l := rest)
  refine ⟨htake.length_le, fun hmem => ?_⟩
  rw [← prefix_iff_eq_take.mp htake] at hmem
  have htrue := all_takeWhile (p := p) (l := rest)
  rw [all_eq_true] at htrue
  exact Bool.false_ne_true (hp.symm.trans (htrue _ hmem))

/-- One more character if the first one is of a class without the line feed. -/
theorem head {p : Char → Bool} (hp : p '\n' = false) (rest : List Char) :
    Clean rest (if (rest.head?.filter p).isSome then 1 else 0) := by
  cases rest with
  | nil => exact zero _
  | cons c rest =>
    cases hc : p c with
    | true =>
      rw [List.head?_cons, Option.filter_some_pos hc]
      exact cons (fun heq => by simp [heq, hp] at hc) (zero rest)
    | false =>
      rw [List.head?_cons, Option.filter_some_neg hc]
      exact zero _

end Clean

/-- How many characters a fault may count behind the end of the source: a number in another base and an
escape are known to be wrong by one more character, which need not be there. -/
def Fault.excess : Fault → Nat
  | .malformedRadix _ | .escape none => 1
  | _ => 0

namespace Scanner

/-- Whether tokens of the kind stand for text of a line, and are no semicolons. -/
def isOrdinary (kind : Kind) : Bool :=
  !kind.isControl && kind != .semicolon

/-- A lexeme that is a token of one line, or a fault in the source. -/
structure IsClean (rest : List Char) (l : Lexeme) : Prop where
  token : ∀ kind text tail, l = .token kind text tail →
    (isOrdinary kind ∨ kind = .semicolon ∧ text = ";") ∧ Clean rest tail
  faulty : ∀ fault tail, l = .faulty fault tail → tail ≤ rest.length + fault.excess

variable {rest : List Char}

theorem isClean_faulty {fault : Fault} {tail : Nat} (h : tail ≤ rest.length + fault.excess) :
    IsClean rest (.faulty fault tail) := by
  refine ⟨by simp, ?_⟩
  rintro _ _ ⟨⟩
  exact h

theorem isClean_token {text : String} {tail : Nat}
    (hkind : isOrdinary kind ∨ kind = .semicolon ∧ text = ";") (h : Clean rest tail) :
    IsClean rest (.token kind text tail) := by
  refine ⟨?_, by simp⟩
  rintro _ _ _ ⟨⟩
  exact ⟨hkind, h⟩

theorem isOrdinary_classify (w : String) : isOrdinary (classify w) := by
  unfold classify
  repeat' split
  all_goals rfl

theorem isClean_word (first : Char) (rest : List Char) : IsClean rest (word first rest) :=
  isClean_token (.inl (isOrdinary_classify _)) (.takeWhile (by decide +kernel) rest)

theorem isClean_annotated (rest : List Char) : IsClean rest (annotated rest) := by
  unfold annotated
  split
  · split
    · exact isClean_token (.inl rfl) (.takeWhile (by decide +kernel) _)
    · exact isClean_faulty (Nat.zero_le _)
  · exact isClean_faulty (Nat.zero_le _)

theorem isClean_radix {mark : List Char} {digit : Char → Bool} {c : Char}
    (hkind : isOrdinary kind) (hdigit : digit '\n' = false) (hc : c ≠ '\n') :
    IsClean (c :: rest) (radix mark kind digit rest) := by
  unfold radix
  dsimp only
  split
  · exact isClean_faulty (Nat.add_le_add_right (List.takeWhile_prefix _).length_le 2)
  · refine isClean_token (.inl hkind) (.cons hc (.takeWhile ?_ rest))
    simp [hdigit]

theorem clean_mantissa (fractional : Bool) (rest : List Char) :
    Clean rest (mantissa fractional rest).length := by
  fun_induction mantissa fractional rest with
  | case1 => exact .zero _
  | case2 fractional c rest hc ih => exact ih.cons (fun heq => by simp [heq, isDigit] at hc)
  | case3 fractional c rest _ hc ih => exact ih.cons (fun heq => by simp [heq] at hc)
  | case4 => exact .zero _
  | case5 fractional c rest _ _ hc _ _ ih => exact ih.cons (fun heq => by simp [heq] at hc)
  | case6 => exact .zero _
  | case7 => exact .zero _

theorem length_lt_of_twoPoints {fractional : Bool} {rest : List Char}
    (h : (mantissa fractional rest).twoPoints) :
    (mantissa fractional rest).length < rest.length := by
  fun_induction mantissa fractional rest with
  | case1 | case6 | case7 => cases h
  | case2 _ _ _ _ ih | case3 _ _ _ _ _ ih | case5 _ _ _ _ _ _ _ _ ih =>
    exact Nat.succ_lt_succ (ih h)
  | case4 => exact Nat.zero_lt_succ _

theorem clean_unsignedMark (rest : List Char) :
    Clean rest (if unsignedMark rest then 1 else 0) := by
  cases rest with
  | nil => exact .zero _
  | cons c rest =>
    split
    next hmark =>
      refine .cons (fun heq => ?_) (.zero rest)
      rw [heq] at hmark
      simp [unsignedMark] at hmark
    next => exact .zero _

theorem isOrdinary_suffixKind (c : Char) : isOrdinary (suffixKind c) := by
  unfold suffixKind
  split <;> rfl

theorem isOrdinary_unsignedKind (kind : Kind) : isOrdinary (unsignedKind kind) := by
  cases kind <;> rfl

theorem isClean_decimal (first : Char) (rest : List Char) : IsClean rest (decimal first rest) := by
  unfold decimal
  extract_lets m text behind unsigned behindMark marked suffix used number
  have hmark : Clean rest marked := (clean_mantissa false rest).add (clean_unsignedMark behind)
  have hbehind : behindMark = rest.drop marked := by
    unfold behindMark marked behind
    split
    · rw [drop_drop]
    · rfl
  have hused : Clean rest used := hmark.add (hbehind ▸ .head (by decide) behindMark)
  split
  next htwo => exact isClean_faulty (length_lt_of_twoPoints htwo)
  split
  · exact isClean_faulty hused.le
  split
  · exact isClean_faulty hused.le
  split
  next hword =>
    refine isClean_faulty (Nat.lt_of_not_le fun hle => ?_)
    simp [drop_eq_nil_of_le hle] at hword
  refine isClean_token (.inl ?_) hused
  split
  · exact isOrdinary_unsignedKind _
  cases hs : suffix with
  | some c => simp only [number, hs, isOrdinary_suffixKind]
  | none => cases hm : m.fractional <;> simp only [number, hs, hm] <;> rfl

theorem isClean_number (first : Char) (rest : List Char) : IsClean rest (number first rest) := by
  unfold number
  split
  · split
    next hmark =>
      refine isClean_radix rfl (by decide) (fun heq => ?_)
      simp [heq] at hmark
    split
    next hmark =>
      refine isClean_radix rfl (by decide) (fun heq => ?_)
      simp [heq] at hmark
    · exact isClean_decimal _ _
  · exact isClean_decimal _ _

theorem clean_body {quote : Char} {text : List Char} {length : Nat}
    (h : body quote rest = .closed text length) : Clean rest length := by
  fun_induction body quote rest generalizing text length with
  | case1 => cases h
  | case2 => cases h
  | case3 c rest hfeed =>
    cases h
    exact .cons (by simpa using hfeed) (.zero rest)
  | case4 => cases h
  | case5 c hfeed _ hback e behind u he ih =>
    cases hb : body quote behind with
    | closed text length =>
      rw [hb] at h
      cases h
      refine .cons (by simpa using hfeed) (.cons (fun heq => ?_) (ih hb))
      rw [heq] at he
      cases he
    | unterminated => rw [hb] at h; cases h
    | escape => rw [hb] at h; cases h
  | case6 => cases h
  | case7 c rest hfeed _ _ ih =>
    cases hb : body quote rest with
    | closed text length =>
      rw [hb] at h
      cases h
      exact .cons (by simpa using hfeed) (ih hb)
    | unterminated => rw [hb] at h; cases h
    | escape => rw [hb] at h; cases h

/-- How many characters a body takes. -/
def Body.length : Body → Nat
  | .closed _ n | .unterminated n | .escape _ n => n

/-- How many of them the source need not have. -/
def Body.excess : Body → Nat
  | .escape c _ => (Fault.escape c).excess
  | _ => 0

theorem length_body (quote : Char) (rest : List Char) :
    (body quote rest).length ≤ rest.length + (body quote rest).excess := by
  have hpush : ∀ {b : Body} {c w}, (b.push c w).length = b.length + w ∧
      (b.push c w).excess = b.excess := by
    rintro (_ | _ | _) c w <;> exact ⟨rfl, rfl⟩
  fun_induction body quote rest <;> simp_all [Body.length, Body.excess, Fault.excess] <;> omega

theorem isClean_quoted {quote : Char} (hkind : isOrdinary kind) (rest : List Char) :
    IsClean rest (quoted quote kind rest) := by
  have hlength := length_body quote rest
  unfold quoted
  split
  iterate 2
    next hbody =>
      rw [hbody] at hlength
      exact isClean_faulty hlength
  next text length hbody =>
    split
    · exact isClean_faulty (clean_body hbody).le
    · exact isClean_token (.inl hkind) (clean_body hbody)

theorem isOrdinary_separator? {c : Char} (h : separator? c = some kind) :
    isOrdinary kind ∨ kind = .semicolon ∧ c.toString = ";" := by
  unfold separator? at h
  split at h <;> cases h
  all_goals first | exact .inl rfl | exact .inr ⟨rfl, rfl⟩

/-- A token does not go beyond the end of its line. -/
theorem isClean_lexeme (c : Char) (rest : List Char) : IsClean rest (lexeme c rest) := by
  unfold lexeme
  split
  · exact isClean_word c rest
  split
  · exact isClean_number c rest
  split
  · exact isClean_quoted rfl rest
  split
  · exact isClean_quoted rfl rest
  split
  · exact isClean_annotated rest
  split
  · exact isClean_token (.inl rfl) (.zero rest)
  split
  next kind hkind => exact isClean_token (isOrdinary_separator? hkind) (.zero rest)
  next => exact isClean_faulty (Nat.zero_le _)

end Scanner

/-! ## The cursor -/

/-- A cursor that is in step with the source. -/
structure Cursor.At (source : List Char) (c : Cursor) : Prop where
  le : c.offset ≤ source.length
  rest : c.rest = source.drop c.offset
  line : c.line = 1 + (source.take c.offset).count '\n'
  lineStart : IsLineStart source c.offset c.lineStart

variable {source : List Char} {i j k n : Nat} {c : Cursor}

theorem drop_length_takeWhile (p : Char → Bool) (l : List Char) :
    l.drop (l.takeWhile p).length = l.dropWhile p := by
  induction l with
  | nil => rfl
  | cons x l ih => cases hx : p x <;> simp [hx, ih]

theorem between_append (hij : i ≤ j) (hjk : j ≤ k) :
    between source i k = between source i j ++ between source j k := by
  unfold between
  rw [show k - i = (j - i) + (k - j) by omega, take_add, drop_drop,
    show i + (j - i) = j by omega]

theorem take_append_between (h : i ≤ j) : source.take j = source.take i ++ between source i j := by
  unfold between
  rw [← take_add, Nat.add_sub_cancel' h]

namespace Cursor.At

theorem start (source : List Char) : At source (.start source) :=
  ⟨Nat.zero_le _, rfl, rfl, ⟨Nat.le_refl _, .inl rfl, by simp [between, Cursor.start]⟩⟩

section

variable (h : At source c)

include h

theorem between_eq (n : Nat) :
    between source c.offset (c.offset + n) = c.rest.take n := by
  rw [between, h.rest, Nat.add_sub_cancel_left]

theorem getElem?_eq (n : Nat) : source[c.offset + n]? = c.rest[n]? := by
  rw [h.rest, List.getElem?_drop]

theorem move (hn : Clean c.rest n) : At source (c.move n) := by
  have hle := hn.le
  rw [h.rest, length_drop] at hle
  have hbetween := h.between_eq n
  have hfeed : '\n' ∉ between source c.offset (c.offset + n) := by
    rw [hbetween]
    exact hn.no_feed
  refine ⟨by have := h.le; simp only [Cursor.move]; omega, ?_, ?_, ?_⟩
  · simp only [Cursor.move, h.rest, drop_drop]
  · simp only [Cursor.move]
    rw [take_append_between (Nat.le_add_right _ n), count_append,
      count_eq_zero_of_not_mem hfeed]
    exact h.line
  · refine ⟨Nat.le_trans h.lineStart.le (Nat.le_add_right _ n), h.lineStart.behind, ?_⟩
    simp only [Cursor.move]
    rw [between_append h.lineStart.le (Nat.le_add_right _ n), mem_append]
    rintro (hmem | hmem)
    · exact h.lineStart.last hmem
    · exact hfeed hmem

theorem newline {rest : List Char} (hc : c.rest = '\n' :: rest) :
    At source c.newline := by
  have hlength := congrArg List.length hc
  rw [h.rest, length_drop, length_cons] at hlength
  have hfeed : between source c.offset (c.offset + 1) = ['\n'] := by
    rw [h.between_eq, hc]
    rfl
  have hget : source[c.offset]? = some '\n' := by
    have := h.getElem?_eq 0
    rwa [hc] at this
  refine ⟨by simp only [Cursor.newline]; omega, ?_, ?_, ?_⟩
  · simp only [Cursor.newline, h.rest, drop_drop]
  · simp only [Cursor.newline]
    rw [take_append_between (Nat.le_succ _), count_append, hfeed, h.line]
    simp; omega
  · refine ⟨Nat.le_refl _, .inr ?_, by simp [between, Cursor.newline]⟩
    simpa [Cursor.newline] using hget

theorem skipBlanks : At source c.skipBlanks :=
  h.move (.takeWhile (by decide) _)

theorem blank_skipBlanks : Blank source c.offset c.skipBlanks.offset := by
  refine ⟨Nat.le_add_right _ _, fun x hx => ?_⟩
  simp only [Cursor.skipBlanks, Cursor.move] at hx
  rw [h.between_eq, ← prefix_iff_eq_take.mp (List.takeWhile_prefix _)] at hx
  exact all_eq_true.mp all_takeWhile x hx

theorem span (hn : n ≤ c.rest.length) : (c.span n).Exact source := by
  rw [h.rest, length_drop] at hn
  exact ⟨by have := h.le; simp only [Cursor.span]; omega, h.line, h.lineStart⟩

theorem offset_eq (hrest : c.rest = []) : c.offset = source.length := by
  have hlength := congrArg List.length (h.rest.symm.trans hrest)
  have hle := h.le
  simp only [length_drop, length_nil] at hlength
  omega

theorem skipLine : At source c.skipLine :=
  h.move (.takeWhile (by decide) _)

theorem no_feed_skipLine : '\n' ∉ between source c.offset c.skipLine.offset := by
  simp only [Cursor.skipLine, Cursor.move]
  rw [h.between_eq]
  exact (Clean.takeWhile (by decide) c.rest).no_feed

/-- A comment that ends with its line ends in front of a line feed or with the source. -/
theorem end_skipLine :
    c.skipLine.offset = source.length ∨ source[c.skipLine.offset]? = some '\n' := by
  cases hrest : c.skipLine.rest with
  | nil => exact .inl (h.skipLine.offset_eq hrest)
  | cons x more =>
    have hget := h.skipLine.getElem?_eq 0
    rw [hrest] at hget
    simp only [Cursor.skipLine, Cursor.move, drop_length_takeWhile] at hrest
    have hx := List.head?_dropWhile_not (fun ch => ch != '\n') c.rest
    rw [hrest] at hx
    obtain rfl : x = '\n' := by simpa using hx
    exact .inr hget

/-- Two characters that stand next to each other are a delimiter. -/
theorem delimiter {x y : Char} {rest : List Char} (hc : c.rest = x :: y :: rest)
    (hx : x ≠ '\n') :
    Delimiter source x y (c.operator x.toString) ((c.move 1).operator y.toString) := by
  have hnext : At source (c.move 1) := h.move (by rw [hc]; exact .cons hx (.zero _))
  have hx := h.getElem?_eq 0
  have hy := h.getElem?_eq 1
  rw [hc] at hx hy
  refine ⟨⟨by simp [operator, isOp, is], hx, rfl, h.span (by simp [hc])⟩,
    ⟨by simp [operator, isOp, is], hy, rfl, hnext.span (by simp [Cursor.move, hc])⟩, rfl⟩

/-- A character that does not start the end of a comment belongs to the comment. -/
theorem noClose_cons {x : Char} {rest : List Char} (hc : c.rest = x :: rest)
    (hx : ¬ (x == '*' && rest.head? == some '/') = true) (hk : NoClose source (c.offset + 1) k) :
    NoClose source c.offset k := by
  intro i hi hik
  rcases Nat.eq_or_lt_of_le hi with rfl | hlt
  · have hfirst := h.getElem?_eq 0
    have hsecond := h.getElem?_eq 1
    rw [hc] at hfirst hsecond
    rw [Nat.add_zero] at hfirst
    rw [hfirst, hsecond, List.getElem?_cons_zero, List.getElem?_cons_succ, ← List.head?_eq_getElem?]
    simpa using hx
  · exact hk i hlt hik

theorem skipBlock :
    At source (Cursor.skipBlock c.rest c.offset c.line c.lineStart) ∧
      c.offset ≤ (Cursor.skipBlock c.rest c.offset c.line c.lineStart).offset ∧
      NoClose source c.offset (Cursor.skipBlock c.rest c.offset c.line c.lineStart).offset ∧
      ∀ x more, (Cursor.skipBlock c.rest c.offset c.line c.lineStart).rest = x :: more →
        x = '*' ∧ more.head? = some '/' := by
  obtain ⟨rest, offset, line, lineStart⟩ := c
  fun_induction Cursor.skipBlock rest offset line lineStart with
  | case1 offset line lineStart =>
    exact ⟨h, Nat.le_refl _, fun i hi hlt => absurd hi (Nat.not_le_of_lt hlt),
      fun _ _ hmore => absurd hmore (cons_ne_nil _ _).symm⟩
  | case2 c rest offset line lineStart hclose =>
    refine ⟨h, Nat.le_refl _, fun i hi hlt => absurd hi (Nat.not_le_of_lt hlt), ?_⟩
    rintro _ _ ⟨⟩
    simpa using hclose
  | case3 c rest offset line lineStart hclose hfeed ih =>
    obtain rfl : c = '\n' := by simpa using hfeed
    obtain ⟨hat, hle, hno, hrest⟩ := ih (h.newline rfl)
    exact ⟨hat, Nat.le_of_succ_le hle, h.noClose_cons rfl hclose hno, hrest⟩
  | case4 c rest offset line lineStart hclose hfeed ih =>
    obtain ⟨hat, hle, hno, hrest⟩ := ih (h.move (n := 1) (.cons (by simpa using hfeed) (.zero _)))
    exact ⟨hat, Nat.le_of_succ_le hle, h.noClose_cons rfl hclose hno, hrest⟩

theorem moveTwo {x y : Char} {rest : List Char} (hc : c.rest = x :: y :: rest)
    (hx : x ≠ '\n') (hy : y ≠ '\n') : At source (c.move 2) :=
  h.move (by rw [hc]; exact .cons hx (.cons hy (.zero _)))

end

end Cursor.At

/-! ## The scan -/

theorem Cursor.At.blockComment {rest : List Char} (h : c.At source)
    (hc : c.rest = '/' :: '*' :: rest) : (Scanner.blockComment c).2.At source := by
  obtain ⟨hclose, -, -, hhead⟩ := (h.moveTwo hc (by decide) (by decide)).skipBlock
  unfold Scanner.blockComment
  dsimp only
  split
  next => exact hclose
  next x more hcons =>
    obtain ⟨rfl, hslash⟩ := hhead x more hcons
    obtain ⟨more, rfl⟩ := List.head?_eq_some_iff.mp hslash
    exact hclose.moveTwo hcons (by decide) (by decide)

theorem Cursor.At.lineComment {rest : List Char} (h : c.At source)
    (hc : c.rest = '/' :: '/' :: rest) : (Scanner.lineComment c).2.At source :=
  (h.moveTwo hc (by decide) (by decide)).skipLine

theorem laid_lineComment {rest : List Char} {ts : List Token} (h : c.At source)
    (hc : c.rest = '/' :: '/' :: rest) (hblank : Blank source n c.offset)
    (hts : Laid source (Scanner.lineComment c).2.offset ts) :
    Laid source n ((Scanner.lineComment c).1 ++ ts) := by
  have hbehind := h.moveTwo hc (by decide) (by decide)
  exact .line hblank (h.delimiter hc (by decide)) (Nat.le_add_right _ _) hbehind.no_feed_skipLine
    hbehind.end_skipLine hts

theorem laid_blockComment {rest : List Char} {ts : List Token} (h : c.At source)
    (hc : c.rest = '/' :: '*' :: rest) (hblank : Blank source n c.offset)
    (hts : Laid source (Scanner.blockComment c).2.offset ts) :
    Laid source n ((Scanner.blockComment c).1 ++ ts) := by
  have hdelimiter := h.delimiter hc (by decide)
  obtain ⟨hclose, hle, hno, hhead⟩ := (h.moveTwo hc (by decide) (by decide)).skipBlock
  unfold Scanner.blockComment at hts ⊢
  dsimp only at hts ⊢
  split at hts
  next hnil =>
    rw [hclose.offset_eq hnil] at hle hno hts
    exact .openBlock hblank hdelimiter hle hno hts
  next x more hcons =>
    obtain ⟨rfl, hslash⟩ := hhead x more hcons
    obtain ⟨more, rfl⟩ := List.head?_eq_some_iff.mp hslash
    exact .block hblank hdelimiter hle hno (hclose.delimiter hcons (by decide)) hts

/-- A slash and a mark open a comment. -/
theorem exists_of_opens {ch mark : Char} {rest : List Char}
    (h : (ch == '/' && rest.head? == some mark) = true) : ∃ more, ch = '/' ∧ rest = mark :: more := by
  simpa [List.head?_eq_some_iff] using h

theorem laid_scanFrom (h : c.At source) : Laid source c.offset (scanFrom c).tokens := by
  fun_induction scanFrom c with
  | case1 start c hrest =>
    have hc : c.At source := h.skipBlanks
    have hend : c.offset = source.length := hc.offset_eq hrest
    exact .finish rfl h.blank_skipBlanks hend hend (hc.span (Nat.zero_le _))
  | case2 start c ch rest hrest hch ih =>
    have hc : c.At source := h.skipBlanks
    obtain rfl : ch = '\n' := by simpa using hch
    have hget := hc.getElem?_eq 0
    rw [hrest] at hget
    exact .newline rfl h.blank_skipBlanks hget (ih (hc.newline hrest))
  | case3 start c ch rest hrest _ hopen ih =>
    obtain ⟨more, rfl, rfl⟩ := exists_of_opens hopen
    exact laid_lineComment h.skipBlanks hrest h.blank_skipBlanks (ih (h.skipBlanks.lineComment hrest))
  | case4 start c ch rest hrest _ _ hopen ih =>
    obtain ⟨more, rfl, rfl⟩ := exists_of_opens hopen
    exact laid_blockComment h.skipBlanks hrest h.blank_skipBlanks (ih (h.skipBlanks.blockComment hrest))
  | case5 start c ch rest hrest hch _ _ kind text tail hlex ih =>
    have hc : c.At source := h.skipBlanks
    obtain ⟨hkind, hclean⟩ := (Scanner.isClean_lexeme ch rest).token kind text tail hlex
    have hkind : kind.isControl = false := by
      rcases hkind with hkind | ⟨rfl, -⟩
      · exact (by simpa [Scanner.isOrdinary] using hkind : _ ∧ _).1
      · rfl
    have hmove : Clean c.rest (tail + 1) := by
      rw [hrest]
      exact .cons (by simpa using hch) hclean
    refine .token hkind h.blank_skipBlanks (Nat.lt_add_of_pos_right (Nat.succ_pos _)) ?_
      (hc.span hmove.le) (ih (hc.move hmove))
    simp only [Cursor.span]
    rw [hc.between_eq]
    exact hmove.no_feed
  | case6 => exact .unexpected rfl h.blank_skipBlanks

/-! ## What the places have in common -/

/-- Whether the token says where it was found. -/
def hasPlace (t : Token) : Bool :=
  t.kind != .newline && t.kind != .unexpected

/-- The last token, and no other one, ends the tokens. -/
def EndsOnce (tokens : List Token) : Prop :=
  ∃ front last, tokens = front ++ [last] ∧ (last.kind = .finish ∨ last.kind = .unexpected) ∧
    ∀ t ∈ front, t.kind ≠ .finish ∧ t.kind ≠ .unexpected

/-- The place of a token: it holds at least one character, or the source ends there. -/
structure Placed (source : List Char) (t : Token) : Prop where
  exact : t.span.Exact source
  finish : t.kind = .finish → t.span.start = source.length ∧ t.span.stop = source.length
  holds : t.kind ≠ .finish → t.span.start < t.span.stop

/-- Tokens with places that come one behind the other from an offset on. -/
structure Sequence (source : List Char) (n : Nat) (tokens : List Token) : Prop where
  ends : EndsOnce tokens
  placed : ∀ t ∈ tokens, t.hasPlace → n ≤ t.span.start ∧ Placed source t
  ordered : (tokens.filter hasPlace).Pairwise fun t u => t.span.stop ≤ u.span.start

variable {t a b : Token} {ts : List Token} {x y : Char}

theorem EndsOnce.cons (h : EndsOnce ts) (ht : t.kind ≠ .finish ∧ t.kind ≠ .unexpected) :
    EndsOnce (t :: ts) := by
  obtain ⟨front, last, rfl, hlast, hfront⟩ := h
  exact ⟨t :: front, last, rfl, hlast, forall_mem_cons.mpr ⟨ht, hfront⟩⟩

namespace Sequence

theorem cons (h : Sequence source t.span.stop ts) (hkind : t.kind.isControl = false)
    (hle : n ≤ t.span.start) (hlt : t.span.start < t.span.stop) (hexact : t.span.Exact source) :
    Sequence source n (t :: ts) := by
  have hne : t.kind ≠ .finish ∧ t.kind ≠ .unexpected ∧ t.kind ≠ .newline := by
    refine ⟨?_, ?_, ?_⟩ <;> intro heq <;> simp [heq, Kind.isControl] at hkind
  refine ⟨h.ends.cons ⟨hne.1, hne.2.1⟩, ?_, ?_⟩
  · refine forall_mem_cons.mpr ⟨fun _ => ?_, fun u hu hplace => ?_⟩
    · exact ⟨hle, hexact, fun heq => absurd heq hne.1, fun _ => hlt⟩
    obtain ⟨hstart, hplaced⟩ := h.placed u hu hplace
    exact ⟨by omega, hplaced⟩
  · rw [filter_cons_of_pos (by simp [hasPlace, hne])]
    refine pairwise_cons.mpr ⟨fun u hu => ?_, h.ordered⟩
    obtain ⟨hmem, hplace⟩ := mem_filter.mp hu
    exact (h.placed u hmem hplace).1

theorem mono (h : Sequence source k ts) (hle : n ≤ k) : Sequence source n ts :=
  ⟨h.ends, fun t ht hp => ⟨Nat.le_trans hle (h.placed t ht hp).1, (h.placed t ht hp).2⟩, h.ordered⟩

theorem skip (h : Sequence source n ts) (hkind : t.kind = .newline) :
    Sequence source n (t :: ts) := by
  have hplace : t.hasPlace = false := by simp [hasPlace, hkind]
  refine ⟨h.ends.cons (by simp [hkind]), ?_, ?_⟩
  · exact forall_mem_cons.mpr ⟨fun hp => absurd hp (by simp [hplace]), h.placed⟩
  · rw [filter_cons_of_neg (by simp [hplace])]
    exact h.ordered

theorem delimiter (h : Sequence source b.span.stop ts) (hd : Delimiter source x y a b)
    (hle : n ≤ a.span.start) : Sequence source n (a :: b :: ts) := by
  have hkind : ∀ {t : Token} {text : String}, t.isOp text → t.kind.isControl = false := by
    intro t text ht
    simp only [isOp, is, Bool.and_eq_true, beq_iff_eq] at ht
    rw [ht.1]
    rfl
  obtain ⟨⟨ha, -, hastop, haexact⟩, ⟨hb, -, hbstop, hbexact⟩, htouch⟩ := hd
  exact (h.cons (hkind hb) (Nat.le_of_eq htouch.symm) (by omega) hbexact).cons (hkind ha) hle
    (by omega) haexact

end Sequence

theorem Laid.sequence (h : Laid source n ts) : Sequence source n ts := by
  induction h with
  | finish hkind hblank hstart hstop hexact =>
    refine ⟨⟨[], _, rfl, .inl hkind, fun _ h => nomatch h⟩, ?_, List.Pairwise.sublist
      filter_sublist (pairwise_singleton _ _)⟩
    exact forall_mem_singleton.mpr fun _ =>
      ⟨hblank.le, hexact, fun _ => ⟨hstart, hstop⟩, fun hne => absurd hkind hne⟩
  | unexpected hkind _ =>
    refine ⟨⟨[], _, rfl, .inr hkind, fun _ h => nomatch h⟩, ?_, List.Pairwise.sublist
      filter_sublist (pairwise_singleton _ _)⟩
    exact forall_mem_singleton.mpr fun hp => absurd hp (by simp [hasPlace, hkind])
  | newline hkind hblank _ _ ih => exact (ih.mono (Nat.le_succ_of_le hblank.le)).skip hkind
  | token hkind hblank hlt _ hexact _ ih => exact ih.cons hkind hblank.le hlt hexact
  | line hblank hd hle _ _ _ ih => exact (ih.mono hle).delimiter hd hblank.le
  | block hblank hd hle _ hd' _ ih => exact (ih.delimiter hd' hle).delimiter hd hblank.le
  | openBlock hblank hd hle _ _ ih => exact (ih.mono hle).delimiter hd hblank.le

/-- The places of the tokens of a scan. The last token, and no other one, is the end or a lexical
error. Every other token but a line end lies inside the source behind the tokens before it and says
its line, and only blanks, line feeds and the texts of comments stand between the tokens. -/
theorem places_exact (bytes : List UInt8) :
    EndsOnce (scan (Text.Utf8.decode bytes)).tokens ∧
      (∀ t ∈ (scan (Text.Utf8.decode bytes)).tokens, t.hasPlace = true →
        Placed (Text.Utf8.decode bytes) t) ∧
      (((scan (Text.Utf8.decode bytes)).tokens.filter hasPlace).Pairwise fun t u =>
        t.span.stop ≤ u.span.start) ∧
      Laid (Text.Utf8.decode bytes) 0 (scan (Text.Utf8.decode bytes)).tokens := by
  have hlaid := laid_scanFrom (.start (Text.Utf8.decode bytes))
  exact ⟨hlaid.sequence.ends, fun t ht hp => (hlaid.sequence.placed t ht hp).2,
    hlaid.sequence.ordered, hlaid⟩

end Token

end SsaCompiler
