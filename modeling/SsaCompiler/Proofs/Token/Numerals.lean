import Mathlib.Data.Nat.Digits.Defs
import SsaCompiler.Proofs.Token.Places
import SsaCompiler.Typing.Literal

/-!
# Integer literals

`Written` says what an integer literal is in the source: its digits, and by the mark in front of them
or the letters behind them its type and the greatest number it may denote. The scanner drops the
underscores and cuts off the suffix, and typing reads the text that is left; `integers_read_exactly`
says that both together give the number that was written, for any number of digits.
-/

namespace SsaCompiler

open List Number Literal

variable {p : Primitive} {digit : Char → Bool} {suffix : Option Char}

namespace Token

def Kind.isIntegral (k : Kind) : Bool :=
  k.isNumber && k != .float && k != .double

/-! ## What is written -/

def digitValue (c : Char) : Nat :=
  "0123456789abcdef".toList.idxOf c.toLower

/-- The number that digits denote. Underscores between them do not count. -/
def numeral (base : Nat) (digits : List Char) : Nat :=
  Nat.ofDigits base ((digits.filter (· != '_')).reverse.map digitValue)

/-- At least one digit of a base, and underscores. -/
structure AreDigits (base : Nat) (digits : List Char) : Prop where
  some_digit : digits.filter (· != '_') ≠ []
  all : ∀ c ∈ digits, c ≠ '_' → digitValue c < base

/-- The type that the letters behind a decimal number give it. -/
def suffixType? (suffix : List Char) : Option Primitive :=
  match suffix.map Char.toLower with
  | [] | ['i'] => some .int
  | ['b'] => some .byte
  | ['s'] => some .short
  | ['l'] => some .long
  | ['u'] | ['u', 'i'] => some .uint
  | ['u', 'b'] => some .ubyte
  | ['u', 's'] => some .ushort
  | ['u', 'l'] => some .ulong
  | _ => none

/-- The greatest number of a type. -/
def greatest (p : Primitive) : Nat :=
  if p.isUnsigned then 2 ^ p.bits - 1 else 2 ^ (p.bits - 1) - 1

/-- The type of a number in another base. -/
def wideType (n : Nat) : Primitive :=
  if n ≤ 2 ^ 31 - 1 then .int else .long

/-- An integer literal with the number that it denotes, its type and the greatest number that may be
written so. -/
inductive Written : List Char → Nat → Primitive → Nat → Prop where
  | decimal {digits suffix : List Char} {p : Primitive} : AreDigits 10 digits →
    suffixType? suffix = some p → Written (digits ++ suffix) (numeral 10 digits) p (greatest p)
  | hexadecimal {x : Char} {digits : List Char} : x = 'x' ∨ x = 'X' → AreDigits 16 digits →
    Written ('0' :: x :: digits) (numeral 16 digits) (wideType (numeral 16 digits)) (2 ^ 64 - 1)
  | binary {digits : List Char} : AreDigits 2 digits →
    Written ('0' :: 'b' :: digits) (numeral 2 digits) (wideType (numeral 2 digits)) (2 ^ 64 - 1)

/-- A literal whose kind and text are read as what is written: the value is the 64-bit word of the
number, and there is one exactly if the number is not too great. -/
def ReadAs (written : List Char) (kind : Kind) (text : String) : Prop :=
  ∃ n p limit, Written written n p limit ∧ read? kind text =
    some (.ofPrimitive p, if n ≤ limit then some (.int p (Number.wrap64 n)) else none)

/-! ## Reading digits -/

variable {base n tail : Nat} {digits rest source : List Char} {ch : Char} {kind : Kind} {text : String}

theorem toNat_lt_of_isHexDigit (h : Scanner.isHexDigit ch) : ch.toNat < 128 := by
  have hle : ch ≤ 'f' := by
    simp only [Scanner.isHexDigit, Scanner.isDigit, Bool.or_eq_true, Bool.and_eq_true,
      decide_eq_true_eq] at h
    rcases h with (h | h) | h
    · exact Char.le_trans h.2 (by decide)
    · exact h.2
    · exact Char.le_trans h.2 (by decide)
  exact Nat.lt_of_le_of_lt (UInt32.le_iff_toNat_le.mp hle) (by decide)

theorem digit?_eq_digitValue (h : Scanner.isHexDigit ch) :
    digit? ch = some (digitValue ch) ∧ ch ≠ '_' ∧ digitValue ch < 16 ∧
      (Scanner.isDigit ch → digitValue ch < 10) := by
  have htable : ∀ k < 128, Scanner.isHexDigit (Char.ofNat k) →
      digit? (Char.ofNat k) = some (digitValue (Char.ofNat k)) ∧ Char.ofNat k ≠ '_' ∧
        digitValue (Char.ofNat k) < 16 ∧
        (Scanner.isDigit (Char.ofNat k) → digitValue (Char.ofNat k) < 10) := by
    decide +kernel
  have hch := htable ch.toNat (toNat_lt_of_isHexDigit h)
  rw [Char.ofNat_toNat] at hch
  exact hch h

theorem readDigits_eq (h : ∀ c ∈ digits, digitIn? base c = some (digitValue c)) :
    Number.readDigits base n digits =
      some (digits.foldl (fun m c => digitValue c + base * m) n) := by
  induction digits generalizing n with
  | nil => rfl
  | cons c digits ih =>
    obtain ⟨hc, hrest⟩ := forall_mem_cons.mp h
    rw [Number.readDigits, hc, foldl_cons, ← ih hrest]
    rw [Nat.mul_comm, Nat.add_comm]

/-- The text that the scanner keeps is read as the number that was written. -/
theorem ofDigits?_eq_numeral (h : AreDigits base digits)
    (hall : ∀ c ∈ digits, c ≠ '_' → Scanner.isHexDigit c) :
    ofDigits? base (digits.filter (· != '_')) = some (numeral base digits) := by
  have hvalue : ∀ c ∈ digits.filter (· != '_'), digitIn? base c = some (digitValue c) := by
    intro c hc
    obtain ⟨hmem, hne⟩ := mem_filter.mp hc
    have hne : c ≠ '_' := by simpa using hne
    rw [digitIn?, (digit?_eq_digitValue (hall c hmem hne)).1]
    exact Option.filter_some_pos (by simpa using h.all c hmem hne)
  rw [ofDigits?, if_neg (by simpa using h.some_digit), readDigits_eq hvalue, numeral,
    Nat.ofDigits_eq_foldr, map_reverse, foldr_reverse, foldl_map]
  rfl

theorem areDigits_of_all (hsome : digits.filter (· != '_') ≠ [])
    (hall : ∀ c ∈ digits, digit c ∨ c = '_')
    (hdigit : ∀ c, digit c → Scanner.isHexDigit c ∧ digitValue c < base) : AreDigits base digits ∧
      ofDigits? base (digits.filter (· != '_')) = some (numeral base digits) := by
  have hof : ∀ c ∈ digits, c ≠ '_' → digit c := fun c hc => (hall c hc).resolve_right
  have hare : AreDigits base digits := ⟨hsome, fun c hc hne => (hdigit c (hof c hc hne)).2⟩
  exact ⟨hare, ofDigits?_eq_numeral hare fun c hc hne => (hdigit c (hof c hc hne)).1⟩

/-! ## Numbers in another base -/

theorem wrap64_of_small (h : n < 2 ^ 31) : Number.wrap64 n = n :=
  wrap64_of_fits (by omega) (by omega)

theorem readRadix_eq (hread : ofDigits? base (text.toList.drop 2) = some n) :
    Literal.readRadix base text = (.ofPrimitive (wideType n),
      if n ≤ 2 ^ 64 - 1 then some (.int (wideType n) (Number.wrap64 n)) else none) := by
  rw [Literal.readRadix, digitValue?, hread]
  simp only [Nat.shiftLeft_eq, Nat.one_mul]
  by_cases hsmall : n < 2 ^ 31
  · have hint : wideType n = .int := if_pos (by omega)
    rw [if_pos hsmall, hint, if_pos (by omega), wrap64_of_small hsmall]
  have hlong : wideType n = .long := if_neg (by omega)
  rw [if_neg hsmall, hlong]
  by_cases hword : n < 2 ^ 64
  · rw [if_pos hword, if_pos (by omega)]
  · rw [if_neg hword, if_neg (by omega)]

namespace Scanner

/-- The digits behind the mark of another base. -/
theorem radix_token {a b x : Char} {other : Kind}
    (h : radix [a, b] other digit rest = .token kind text tail)
    (hdigit : ∀ c, digit c → isHexDigit c ∧ digitValue c < base) :
    kind = other ∧ ∃ digits, (x :: rest).take tail = x :: digits ∧ AreDigits base digits ∧
      ofDigits? base (text.toList.drop 2) = some (numeral base digits) := by
  unfold radix at h
  extract_lets body digits after at h
  split at h
  next => cases h
  next hsome =>
    cases h
    have hbody : rest.take body.length = body :=
      (prefix_iff_eq_take.mp (List.takeWhile_prefix _)).symm
    have hall : ∀ c ∈ body, digit c ∨ c = '_' := by
      intro c hc
      simpa using all_eq_true.mp all_takeWhile c hc
    have hne : body.filter (· != '_') ≠ [] := by
      rw [Bool.or_eq_true, not_or] at hsome
      simpa [digits] using hsome.1
    obtain ⟨hare, hread⟩ := areDigits_of_all hne hall hdigit
    exact ⟨rfl, body, by rw [take_succ_cons, hbody], hare, by simpa [digits] using hread⟩

theorem isHexDigit_of_isDigit (h : isDigit ch) : isHexDigit ch ∧ digitValue ch < 10 := by
  have hhex : isHexDigit ch := by simp [isHexDigit, h]
  exact ⟨hhex, (digit?_eq_digitValue hhex).2.2.2 h⟩

theorem isHexDigit_of_isBinaryDigit (h : isBinaryDigit ch) : isHexDigit ch ∧ digitValue ch < 2 := by
  simp only [isBinaryDigit, Bool.or_eq_true, beq_iff_eq] at h
  rcases h with rfl | rfl <;> decide

/-! ## Decimal numbers -/

/-- Without a decimal point there are only digits and underscores. -/
theorem mantissa_integral (h : (mantissa false rest).fractional = false) :
    (mantissa false rest).digits = (rest.take (mantissa false rest).length).filter (· != '_') ∧
      ∀ c ∈ rest.take (mantissa false rest).length, isDigit c ∨ c = '_' := by
  have hpoint : ∀ rest, (mantissa true rest).fractional := by
    intro rest
    induction rest with
    | nil => rfl
    | cons c rest ih =>
      unfold mantissa
      repeat' split
      all_goals first | exact ih | rfl
  induction rest with
  | nil => simp [mantissa]
  | cons c rest ih =>
    unfold mantissa at h ⊢
    split at h
    next hc =>
      have hne : c ≠ '_' := (digit?_eq_digitValue (isHexDigit_of_isDigit hc).1).2.1
      simp_all [Mantissa.push]
    split at h
    next hc =>
      simp_all [Mantissa.push]
    split at h
    next hc =>
      rw [if_neg Bool.false_ne_true] at h ⊢
      split at h
      next =>
        simp_all [Mantissa.push]
      next => simp_all
    next => simp_all

theorem fits_iff : Literal.fits p n = decide (n ≤ greatest p) := by
  have hone : ∀ k, (1 : Nat) <<< k = 2 ^ k := fun k => by rw [Nat.shiftLeft_eq, Nat.one_mul]
  have hpos := Nat.two_pow_pos
  cases hu : p.isUnsigned
  · have := hpos (p.bits - 1)
    simp only [Literal.fits, Number.fitsSigned, greatest, hu, hone, Bool.false_eq_true, if_false]
    rw [Bool.eq_iff_iff]
    simp only [Bool.and_eq_true, decide_eq_true_eq]
    omega
  · have := hpos p.bits
    simp only [Literal.fits, Number.fitsUnsigned, greatest, hu, hone, if_true]
    rw [decide_eq_decide]
    omega

theorem readInteger_eq (hread : ofDigits? 10 text.toList = some n) :
    Literal.readInteger p text =
      if n ≤ greatest p then some (.int p (Number.wrap64 n)) else none := by
  rw [Literal.readInteger, digitValue?, hread]
  by_cases hle : n ≤ greatest p
  · rw [Option.filter_some_pos (by simpa [fits_iff] using hle), if_pos hle]
    rfl
  · rw [Option.filter_some_neg (by simpa [fits_iff] using hle), if_neg hle]
    rfl

theorem read?_integer (h : integerType? kind = some p) :
    read? kind text = some (.ofPrimitive p, Literal.readInteger p text) := by
  cases kind <;> cases h <;> rfl

theorem toLower_of_isSuffix (h : isSuffix ch) (hf : suffixKind ch ≠ .float)
    (hd : suffixKind ch ≠ .double) :
    ch.toLower = 'b' ∨ ch.toLower = 's' ∨ ch.toLower = 'i' ∨ ch.toLower = 'l' := by
  simp only [isSuffix, contains_iff_mem, mem_cons, not_mem_nil, or_false] at h
  simp only [suffixKind] at hf hd
  rcases h with h | h | h | h | h | h <;> simp_all

/-- The kind that an optional suffix letter gives a number without a decimal point. -/
def letterKind : Option Char → Kind
  | some c => suffixKind c
  | none => .integer

/-- The letters behind a decimal number give it the type that its kind stands for. -/
theorem suffixType?_eq (hsuffix : ∀ c ∈ suffix, isSuffix c) (hf : letterKind suffix ≠ .float)
    (hd : letterKind suffix ≠ .double) :
    (∃ p, suffixType? suffix.toList = some p ∧
        integerType? (letterKind suffix) = some p) ∧
      ∀ u, u.toLower = 'u' → ∃ p, suffixType? (u :: suffix.toList) = some p ∧
        integerType? (unsignedKind (letterKind suffix)) = some p := by
  cases suffix with
  | none => exact ⟨⟨.int, rfl, rfl⟩, fun u hu => ⟨.uint, by simp [suffixType?, hu], rfl⟩⟩
  | some c =>
    rcases toLower_of_isSuffix (hsuffix c rfl) hf hd with h | h | h | h <;>
      simp +contextual [letterKind, suffixKind, suffixType?, h, unsignedKind, integerType?]

theorem take_head? {p : Char → Bool} (l : List Char) :
    l.take (if (l.head?.filter p).isSome then 1 else 0) = (l.head?.filter p).toList := by
  cases l with
  | nil => rfl
  | cons c l => cases hc : p c <;> simp [Option.filter, hc]

/-- The letters behind a decimal number: an unsigned mark and a suffix, each of them optional. -/
theorem letters_read (behind : List Char) {unsigned : Bool} {behindMark : List Char}
    (hu : unsigned = unsignedMark behind)
    (hb : behindMark = if unsigned then behind.drop 1 else behind)
    (hs : suffix = behindMark.head?.filter isSuffix) (hf : letterKind suffix ≠ .float)
    (hd : letterKind suffix ≠ .double) :
    ∃ p, suffixType? (behind.take ((if unsigned then 1 else 0) + if suffix.isSome then 1 else 0)) =
        some p ∧
      integerType? (if unsigned then unsignedKind (letterKind suffix)
        else letterKind suffix) = some p := by
  have hsuffix : ∀ c ∈ suffix, isSuffix c := fun c hc =>
    (Option.mem_filter_iff.mp (hs ▸ hc)).2
  obtain ⟨hplain, hmarked⟩ := suffixType?_eq hsuffix hf hd
  cases unsigned with
  | false =>
    subst hb hs
    simp only [Bool.false_eq_true, if_false, Nat.zero_add, take_head?]
    exact hplain
  | true =>
    cases behind with
    | nil => cases hu
    | cons u more =>
      subst hb hs
      have hmark : u.toLower = 'u' := by
        simp only [unsignedMark] at hu
        simp_all
      simp only [if_true, Nat.add_comm 1, take_succ_cons, take_head?]
      exact hmarked u hmark

theorem readAs_decimal (h : decimal ch rest = .token kind text tail) (hch : isDigit ch)
    (hkind : kind.isIntegral) : ReadAs (ch :: rest.take tail) kind text := by
  unfold decimal at h
  extract_lets m shown behind unsigned behindMark marked suffix used number at h
  split at h
  next => cases h
  split at h
  next => cases h
  next hfraction =>
  split at h
  next => cases h
  next hunsigned =>
  split at h
  next => cases h
  obtain ⟨rfl, rfl, rfl⟩ := (Lexeme.token.injEq ..).mp h
  -- an integral kind comes from a number without a decimal point
  have hplain : number ≠ .float ∧ number ≠ .double := by
    cases hu : unsigned <;> simp_all [Kind.isIntegral]
  have hpoint : m.fractional = false := by simp_all
  have hnumber : number = letterKind suffix := by
    unfold number letterKind
    cases suffix <;> simp [hpoint]
  rw [hnumber] at hplain ⊢
  obtain ⟨p, hp, htype⟩ := letters_read behind rfl rfl rfl hplain.1 hplain.2
  obtain ⟨hdigits, hall⟩ := mantissa_integral hpoint
  have hne : ch ≠ '_' := (digit?_eq_digitValue (isHexDigit_of_isDigit hch).1).2.1
  have hshown : (ch :: rest.take m.length).filter (· != '_') = shown.toList := by
    rw [filter_cons_of_pos (by simpa using hne), ← hdigits, String.toList_ofList]
  obtain ⟨hare, hread⟩ := areDigits_of_all (hshown ▸ by simp [shown])
    (forall_mem_cons.mpr ⟨.inl hch, hall⟩) fun _ => isHexDigit_of_isDigit
  have hused : rest.take used = rest.take m.length ++ behind.take
      ((if unsigned then 1 else 0) + if suffix.isSome then 1 else 0) := by
    rw [← take_add, ← Nat.add_assoc]
  rw [hused, ← cons_append]
  refine ⟨_, p, _, .decimal hare hp, ?_⟩
  rw [read?_integer htype, readInteger_eq (hshown ▸ hread)]

theorem readAs_number (h : number ch rest = .token kind text tail) (hch : isDigit ch)
    (hkind : kind.isIntegral) : ReadAs (ch :: rest.take tail) kind text := by
  unfold number at h
  split at h
  next mark behind =>
    split at h
    next hmark =>
      obtain ⟨rfl, hx⟩ : ch = '0' ∧ (mark = 'x' ∨ mark = 'X') := by simpa using hmark
      obtain ⟨rfl, digits, htail, hare, hread⟩ := radix_token h fun c hc =>
        ⟨hc, (digit?_eq_digitValue hc).2.2.1⟩
      rw [htail]
      exact ⟨_, _, _, .hexadecimal hx hare, congrArg some (readRadix_eq hread)⟩
    split at h
    next hmark =>
      obtain ⟨rfl, rfl⟩ : ch = '0' ∧ mark = 'b' := by simpa using hmark
      obtain ⟨rfl, digits, htail, hare, hread⟩ := radix_token h fun _ =>
        isHexDigit_of_isBinaryDigit
      rw [htail]
      exact ⟨_, _, _, .binary hare, congrArg some (readRadix_eq hread)⟩
    · exact readAs_decimal h hch hkind
  · exact readAs_decimal h hch hkind

theorem isIntegral_classify (w : String) : (classify w).isIntegral = false := by
  unfold classify
  repeat' split
  all_goals rfl

/-- Only the rule for numbers makes integer literals. -/
theorem readAs_lexeme (h : lexeme ch rest = .token kind text tail) (hkind : kind.isIntegral) :
    ReadAs (ch :: rest.take tail) kind text := by
  unfold lexeme at h
  split at h
  next =>
    cases h
    rw [isIntegral_classify] at hkind
    cases hkind
  split at h
  next hch => exact readAs_number h hch hkind
  next =>
    have hseparator : ∀ k, separator? ch = some k → k.isIntegral = false := by
      intro k hk
      unfold separator? at hk
      split at hk <;> cases hk <;> rfl
    unfold quoted annotated at h
    repeat' split at h
    all_goals cases h
    all_goals simp_all [Kind.isIntegral, Kind.isNumber]

end Scanner

/-- Whatever integer literals are among the tokens, they are read as what is written. -/
def AllRead (source : List Char) (ts : List Token) : Prop :=
  ∀ t ∈ ts, t.kind.isIntegral →
    ReadAs (between source t.span.start t.span.stop) t.kind t.text

theorem AllRead.after {s : Scan} {ts : List Token} (h : AllRead source s.tokens)
    (hts : ∀ t ∈ ts, t.kind.isIntegral = false) : AllRead source (s.after ts).tokens :=
  forall_mem_append.mpr ⟨fun t ht hkind => by simp [hts t ht] at hkind, h⟩

theorem allRead_scanFrom {c : Cursor} (h : c.At source) : AllRead source (scanFrom c).tokens := by
  have hop : Kind.operator.isIntegral = false := rfl
  fun_induction scanFrom c with
  | case1 | case6 =>
    refine forall_mem_singleton.mpr fun hkind => ?_
    cases hkind
  | case2 start c ch rest hrest hch ih =>
    obtain rfl : ch = '\n' := by simpa using hch
    exact (ih (h.skipBlanks.newline hrest)).after (forall_mem_singleton.mpr rfl)
  | case3 start c ch rest hrest _ hopen ih =>
    obtain ⟨more, rfl, rfl⟩ := exists_of_opens hopen
    refine (ih (h.skipBlanks.lineComment hrest)).after ?_
    simp [Scanner.lineComment, Cursor.operator, hop]
  | case4 start c ch rest hrest _ _ hopen ih =>
    obtain ⟨more, rfl, rfl⟩ := exists_of_opens hopen
    refine (ih (h.skipBlanks.blockComment hrest)).after ?_
    unfold Scanner.blockComment
    dsimp only
    split <;> simp [Cursor.operator, hop]
  | case5 start c ch rest hrest hch _ _ kind text tail hlex ih =>
    have hc : c.At source := h.skipBlanks
    have hmove : Clean c.rest (tail + 1) := by
      rw [hrest]
      exact .cons (by simpa using hch) ((Scanner.isClean_lexeme ch rest).token kind text tail hlex).2
    refine forall_mem_cons.mpr ⟨fun hkind => ?_, ih (hc.move hmove)⟩
    have hwritten := Scanner.readAs_lexeme hlex hkind
    rwa [← take_succ_cons, ← hrest, ← hc.between_eq] at hwritten

/-- Every integer literal of a source without lexical errors is read as what is written there: its type
is the one that is written, it has a value exactly if the number that its digits denote is not too
great, and the value is the 64-bit word of this number. -/
theorem integers_read_exactly (file : String) (source : List Char) (tokens : List Token)
    (h : tokenize file source = .ok tokens) (t : Token) (ht : t ∈ tokens)
    (hkind : t.kind.isIntegral = true) :
    ReadAs (between source t.span.start t.span.stop) t.kind t.text := by
  unfold tokenize at h
  dsimp only at h
  split at h
  next => cases h
  next =>
    cases h
    exact allRead_scanFrom (.start source) t ht hkind

/-- A number that is too great for the type of its suffix. -/
theorem integers_read_exactly_ubyte : ReadAs "1_000Ub".toList .ubyte "1000" ∧
    read? .ubyte "1000" = some (.ofPrimitive .ubyte, none) :=
  ⟨integers_read_exactly "a.vs" "1_000Ub".toList
    [⟨.ubyte, "1000", ⟨0, 7, 0, 1⟩⟩, ⟨.finish, "", ⟨7, 7, 0, 1⟩⟩] (by decide +kernel) _
    (mem_cons_self ..) rfl, by cbv⟩

end Token

end SsaCompiler
