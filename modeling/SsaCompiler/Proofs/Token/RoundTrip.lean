import SsaCompiler.Proofs.Text.Encoding
import SsaCompiler.Token.Scanner

/-!
# Writing tokens and scanning them again

A list of tokens is written as a source text with one blank between two tokens. Scanning the text
gives the same kinds and texts again, whatever tokens stand next to each other: no rule of the
scanner looks beyond the blank.
-/

namespace SsaCompiler.Token

open List

variable {cs w text : List Char} {kind : Kind} {fractional : Bool} {quote : Char}

/-! ## Writing -/

/-- What stands in front of the text of a token. -/
def opening : Kind → List Char
  | .annotated => ['@']
  | .string => ['"']
  | .character => ['\'']
  | _ => []

/-- What stands behind the text of a token: a closing quote, or the suffix of a number. -/
def closing : Kind → List Char
  | .string => ['"']
  | .character => ['\'']
  | .byte => ['B']
  | .ubyte => ['U', 'B']
  | .short => ['S']
  | .ushort => ['U', 'S']
  | .uinteger => ['U']
  | .long => ['L']
  | .ulong => ['U', 'L']
  | .float => ['F']
  | .double => ['D']
  | .newline => ['\n']
  | _ => []

/-- How a character is written between quotes. -/
def escape (c : Char) : List Char :=
  match c with
  | '\n' => ['\\', 'n']
  | '\r' => ['\\', 'r']
  | '\t' => ['\\', 't']
  | '\\' => ['\\', '\\']
  | '"' => ['\\', '"']
  | '\'' => ['\\', '\'']
  | c => [c]

/-- How a token of the given kind and text is written. -/
def spelled (kind : Kind) (text : List Char) : List Char :=
  match kind with
  | .string | .character => opening kind ++ text.flatMap escape ++ closing kind
  | kind => opening kind ++ text ++ closing kind

/-- How a token is written. -/
def written (t : Token) : List Char :=
  spelled t.kind t.text.toList

/-- A source text for a list of tokens, with a blank between any two of them. -/
def sourceText (tokens : List Token) : List Char :=
  [' '].intercalate (tokens.map written)

/-- The bytes of the source text of a list of tokens. -/
def sourceBytes (tokens : List Token) : List UInt8 :=
  Text.Utf8.encode (String.ofList (sourceText tokens))

/-! ## Well-formed tokens -/

/-- Words of ASCII characters. -/
def IsWord : List Char → Prop
  | [] => False
  | c :: cs => Scanner.isWordStart c ∧ (∀ d ∈ cs, Scanner.isWordPart d) ∧
      ∀ d ∈ c :: cs, d.val < 128

/-- At least one character, and all of them of a class. -/
def IsRun (p : Char → Bool) (text : List Char) : Prop :=
  text ≠ [] ∧ ∀ c ∈ text, p c

-- the characters of a list are tested one by one, not all characters there are
instance : DecidablePred IsWord
  | [] => .isFalse id
  | c :: cs => decidable_of_decidable_of_iff (p := Scanner.isWordStart c ∧
      cs.all Scanner.isWordPart ∧ (c :: cs).all (decide <| ·.val < 128) = true) (by simp [IsWord])

instance (p : Char → Bool) : DecidablePred (IsRun p) := fun text =>
  decidable_of_decidable_of_iff (p := text ≠ [] ∧ text.all p) (by simp [IsRun])

theorem forall_mem_of_all {p : Char → Prop} [DecidablePred p]
    (h : cs.all fun c => decide (p c)) : ∀ c ∈ cs, p c :=
  fun c hc => of_decide_eq_true (all_eq_true.mp h c hc)

/-- The kinds of integers in decimal digits. -/
def Kind.isDecimal : Kind → Bool
  | .byte | .ubyte | .short | .ushort | .integer | .uinteger | .long | .ulong => true
  | _ => false

/-- The texts that tokens of a kind can have. -/
inductive Shape : Kind → List Char → Prop where
  | newline : Shape .newline []
  | word {w : List Char} : IsWord w → Shape (classify (String.ofList w)) w
  | annotated {w : List Char} : IsWord w → Shape .annotated w
  | integer {kind : Kind} {ds : List Char} : kind.isDecimal → IsRun Scanner.isDigit ds →
    Shape kind ds
  | whole {kind : Kind} {ds : List Char} : kind = .float ∨ kind = .double →
    IsRun Scanner.isDigit ds → Shape kind ds
  | fraction {kind : Kind} {ds es : List Char} : kind = .float ∨ kind = .double →
    IsRun Scanner.isDigit ds → IsRun Scanner.isDigit es → Shape kind (ds ++ '.' :: es)
  | hexadecimal {ds : List Char} : IsRun Scanner.isHexDigit ds →
    Shape .hexadecimal ('0' :: 'x' :: ds)
  | binary {ds : List Char} : IsRun Scanner.isBinaryDigit ds → Shape .binary ('0' :: 'b' :: ds)
  | string (text : List Char) : Shape .string text
  | character (c : Char) : Shape .character [c]
  | operator {c : Char} : Scanner.isOperator c → Shape .operator [c]
  | separator {c : Char} {kind : Kind} : Scanner.separator? c = some kind → Shape kind [c]

/-- A token whose text fits its kind. -/
def WellFormed (t : Token) : Prop :=
  Shape t.kind t.text.toList

namespace Scanner

variable {digit : Char → Bool}

/-! ## Reading one token -/

/-- Nothing is left, or a blank comes next. -/
def AtBlank (rest : List Char) : Prop :=
  rest = [] ∨ ∃ more, rest = ' ' :: more

variable {rest ds es tail : List Char} {c : Char} {p : Char → Bool}

theorem AtBlank.any_head? (h : AtBlank rest) (hp : p ' ' = false) : rest.head?.any p = false := by
  rcases h with rfl | ⟨more, rfl⟩
  · rfl
  · simp [hp]

/-- Characters of a class end in front of one that is not of it. -/
theorem takeWhile_append_eq (hds : ∀ d ∈ ds, p d) (htail : tail.head?.any p = false) :
    (ds ++ tail).takeWhile p = ds := by
  rw [takeWhile_append_of_pos hds]
  cases tail with
  | nil => simp
  | cons d tail =>
    rw [takeWhile_cons_of_neg (by simpa using htail), append_nil]

theorem dropWhile_append_eq (hds : ∀ d ∈ ds, p d) (htail : tail.head?.any p = false) :
    (ds ++ tail).dropWhile p = tail := by
  rw [dropWhile_append_of_pos hds]
  cases tail with
  | nil => rfl
  | cons d tail => rw [dropWhile_cons_of_neg (by simpa using htail)]

theorem word_written (hw : IsWord (c :: cs)) (h : AtBlank rest) :
    word c (cs ++ rest) =
      .token (classify (String.ofList (c :: cs))) (String.ofList (c :: cs)) cs.length := by
  obtain ⟨_, hcs, hascii⟩ := hw
  unfold word
  rw [takeWhile_append_eq hcs (h.any_head? (by decide))]
  dsimp only
  rw [Text.composeWord_of_ascii hascii]

theorem annotated_written (hw : IsWord w) (h : AtBlank rest) :
    annotated (w ++ rest) = .token .annotated (String.ofList w) w.length := by
  cases w with
  | nil => exact hw.elim
  | cons c cs =>
    obtain ⟨hc, hcs, hascii⟩ := hw
    have hpart : ∀ d ∈ c :: cs, isWordPart d :=
      forall_mem_cons.mpr ⟨by simp [isWordPart, hc], hcs⟩
    unfold annotated
    rw [takeWhile_append_eq hpart (h.any_head? (by decide))]
    simp only [cons_append, hc, if_true]
    rw [Text.composeWord_of_ascii hascii]

theorem radix_written {mark : List Char} (hds : IsRun digit ds)
    (hmark : ∀ d, digit d → d ≠ '_') (hblank : digit ' ' = false) (h : AtBlank rest) :
    radix mark kind digit (ds ++ rest) =
      .token kind (String.ofList (mark ++ ds)) (ds.length + 1) := by
  have hall : ∀ d ∈ ds, (digit d || d == '_') = true := fun d hd => by simp [hds.2 d hd]
  have hend : rest.head?.any (fun d => digit d || d == '_') = false :=
    h.any_head? (by simp [hblank])
  have hdigits : ds.filter (fun d => d != '_') = ds :=
    filter_eq_self.mpr fun d hd => by simpa using hmark d (hds.2 d hd)
  unfold radix
  rw [takeWhile_append_eq hall hend, dropWhile_append_eq hall hend]
  dsimp only
  rw [hdigits, if_neg]
  simp [hds.1, h.any_head? (p := isWordPart) (by decide)]

/-! ### Decimal numbers -/

theorem of_isDigit (p : Char → Bool)
    (hp : ['0', '1', '2', '3', '4', '5', '6', '7', '8', '9'].all p) (h : isDigit c) : p c := by
  refine all_eq_true.mp hp c ?_
  have hrange : 48 ≤ c.toNat ∧ c.toNat ≤ 57 := by
    simpa [isDigit, Char.le_def, UInt32.le_iff_toNat_le] using h
  rw [← Char.ofNat_toNat c]
  generalize c.toNat = n at hrange ⊢
  obtain rfl | rfl | rfl | rfl | rfl | rfl | rfl | rfl | rfl | rfl : n = 48 ∨ n = 49 ∨ n = 50 ∨
    n = 51 ∨ n = 52 ∨ n = 53 ∨ n = 54 ∨ n = 55 ∨ n = 56 ∨ n = 57 := by omega
  all_goals decide

theorem mantissa_digits (hds : ∀ d ∈ ds, isDigit d) : mantissa fractional (ds ++ tail) =
      { mantissa fractional tail with
        digits := ds ++ (mantissa fractional tail).digits
        length := ds.length + (mantissa fractional tail).length } := by
  induction ds with
  | nil => simp
  | cons d ds ih =>
    obtain ⟨hd, hds⟩ := forall_mem_cons.mp hds
    rw [cons_append, mantissa, if_pos hd, ih hds]
    simp [Mantissa.push, Nat.add_right_comm]

/-- Characters that end the digits of a number. -/
def endsDigits (c : Char) : Bool :=
  !isDigit c && c != '_' && c != '.'

theorem mantissa_end (h : tail.head?.all endsDigits) :
    mantissa fractional tail = ⟨[], 0, fractional, false⟩ := by
  cases tail with
  | nil => rfl
  | cons c tail =>
    have hc : (isDigit c = false ∧ c ≠ '_') ∧ c ≠ '.' := by
      simpa [endsDigits] using h
    simp [mantissa, hc.1.1, hc.1.2, hc.2]

theorem mantissa_whole (hds : ∀ d ∈ ds, isDigit d) (h : tail.head?.all endsDigits) :
    mantissa false (ds ++ tail) = ⟨ds, ds.length, false, false⟩ := by
  simp [mantissa_digits hds, mantissa_end h]

theorem mantissa_fraction (hds : ∀ d ∈ ds, isDigit d) (hes : IsRun isDigit es)
    (h : tail.head?.all endsDigits) : mantissa false (ds ++ '.' :: es ++ tail) =
      ⟨ds ++ '.' :: es, ds.length + 1 + es.length, true, false⟩ := by
  have hpoint : mantissa false ('.' :: es ++ tail) = (mantissa true (es ++ tail)).push ['.'] := by
    obtain ⟨hne, hall⟩ := hes
    cases es with
    | nil => exact absurd rfl hne
    | cons e es =>
      have he := hall e mem_cons_self
      rw [cons_append, mantissa, if_neg (by decide), if_neg (by decide),
        if_pos (by decide), if_neg Bool.false_ne_true, if_pos (by simp [he])]
  rw [append_assoc, mantissa_digits hds, hpoint, mantissa_digits hes.2, mantissa_end h]
  simp [Mantissa.push, Nat.add_comm, Nat.add_left_comm]

/-- The kinds of decimal numbers with or without a point. -/
def Fits (kind : Kind) (fractional : Bool) : Prop :=
  kind.isDecimal ∧ fractional = false ∨ kind = .float ∨ kind = .double

theorem decimal_written {m : Mantissa} {behind : List Char} (hm : mantissa false behind = m)
    (htwo : m.twoPoints = false) (hbehind : behind.drop m.length = closing kind ++ rest)
    (hkind : Fits kind m.fractional) (h : AtBlank rest) :
    decimal c behind =
      .token kind (String.ofList (c :: m.digits)) (m.length + (closing kind).length) := by
  have hdrop : ∀ k, behind.drop (m.length + k) = (closing kind ++ rest).drop k := by
    intro k
    rw [← hbehind, drop_drop]
  have hclear : isSuffix ' ' = false ∧ isWordPart ' ' = false := by decide
  have hsuffix : isSuffix 'B' ∧ isSuffix 'S' ∧ isSuffix 'L' ∧
      isSuffix 'F' ∧ isSuffix 'D' ∧ isSuffix 'U' = false := by decide
  have hletter : suffixKind 'B' = .byte ∧ suffixKind 'S' = .short ∧ suffixKind 'L' = .long ∧
      suffixKind 'F' = .float ∧ suffixKind 'D' = .double := by decide
  unfold decimal
  rw [hm]
  dsimp only
  rw [htwo, if_neg Bool.false_ne_true, hbehind]
  rcases hkind with ⟨hkind, hfr⟩ | rfl | rfl
  · cases kind <;> simp only [Kind.isDecimal, Bool.false_eq_true] at hkind
    all_goals
      rcases h with rfl | ⟨more, rfl⟩
      all_goals simp [-List.head?_drop, Nat.add_assoc, Option.filter_some, hbehind, hdrop, closing,
        hfr, unsignedMark, unsignedKind, hclear, hsuffix, hletter]
  all_goals
    rcases h with rfl | ⟨more, rfl⟩
    all_goals simp [-List.head?_drop, Option.filter_some, hdrop, closing, unsignedMark, hclear,
      hsuffix, hletter]

/-- Characters that make no hexadecimal or binary number behind a zero. -/
def marksNothing (c : Char) : Bool :=
  !(['x', 'X', 'b'].contains c)

theorem number_eq_decimal {behind : List Char} (h : behind.head?.all marksNothing) :
    number c behind = decimal c behind := by
  unfold number
  cases behind with
  | nil => rfl
  | cons d behind =>
    have hd : (d ≠ 'x' ∧ d ≠ 'X') ∧ d ≠ 'b' := by simpa [marksNothing, and_assoc] using h
    simp [hd.1.1, hd.1.2, hd.2]

theorem closing_ends (hkind : Fits kind fractional) (h : AtBlank rest) :
    (closing kind ++ rest).head?.all endsDigits ∧
      (closing kind ++ rest).head?.all marksNothing := by
  have hrest : rest.head?.all endsDigits ∧ rest.head?.all marksNothing := by
    rcases h with rfl | ⟨more, rfl⟩ <;> exact ⟨rfl, rfl⟩
  rcases hkind with ⟨hkind, -⟩ | rfl | rfl
  · cases kind <;> first | exact ⟨rfl, rfl⟩ | exact hrest | exact absurd hkind Bool.false_ne_true
  · exact ⟨rfl, rfl⟩
  · exact ⟨rfl, rfl⟩

theorem lexeme_digit (h : isDigit c) : lexeme c tail = number c tail := by
  have hword := of_isDigit (fun d => !isWordStart d) (by decide) h
  rw [lexeme, if_neg (by simpa using hword), if_pos h]

theorem marksNothing_digits (hds : ∀ d ∈ ds, isDigit d)
    (htail : tail.head?.all marksNothing) : (ds ++ tail).head?.all marksNothing := by
  cases ds with
  | nil => exact htail
  | cons d ds => exact of_isDigit marksNothing (by decide) (hds d mem_cons_self)

/-! ### Texts and characters -/

theorem body_escape (hq : quote = '"' ∨ quote = '\'') (c : Char) (tail : List Char) :
    body quote (escape c ++ tail) = (body quote tail).push c (escape c).length := by
  unfold escape
  split
  case h_7 hn _ _ hb hd hs =>
    have hquote : (c == quote) = false := by
      rcases hq with rfl | rfl
      · simpa using hd
      · simpa using hs
    simp only [List.cons_append, List.nil_append]
    rw [body.eq_def]
    dsimp only
    rw [if_neg (by simpa using hn), if_neg (by simp [hquote]), if_neg (by simpa using hb)]
    rfl
  all_goals
    rcases hq with rfl | rfl <;> rfl

theorem body_written (hq : quote = '"' ∨ quote = '\'') (text rest : List Char) :
    body quote (text.flatMap escape ++ quote :: rest) =
      .closed text ((text.flatMap escape).length + 1) := by
  induction text with
  | nil =>
    rw [flatMap_nil, nil_append, body.eq_def]
    rcases hq with rfl | rfl <;> rfl
  | cons c text ih =>
    rw [flatMap_cons, append_assoc, body_escape hq, ih]
    simp only [Body.push, length_append, Body.closed.injEq, true_and]
    omega

theorem quoted_written (hq : quote = '"' ∨ quote = '\'') (text rest : List Char)
    (hlength : kind = .character → text.length = 1) :
    quoted quote kind (text.flatMap escape ++ quote :: rest) =
      .token kind (String.ofList text) ((text.flatMap escape).length + 1) := by
  unfold quoted
  rw [body_written hq]
  simpa using hlength

/-! ### Any token -/

/-- How a token of the kind and text is found: where it is written in front of a blank, its first
character starts no comment, and the rule for this character reads all of it. -/
structure Found (kind : Kind) (text : List Char) (c : Char) (cs : List Char) : Prop where
  spelled_eq : spelled kind text = c :: cs
  not_blank : isBlank c = false
  not_feed : c ≠ '\n'
  /-- A slash stands alone. -/
  slash : c = '/' → cs = []
  /-- The rule for its first character reads it. -/
  lexeme_eq : ∀ rest, AtBlank rest →
    lexeme c (cs ++ rest) = .token kind (String.ofList text) cs.length

/-- Kinds that are written as their text. -/
def bare (kind : Kind) : Bool :=
  !(kind == .string || kind == .character) && (opening kind).isEmpty && (closing kind).isEmpty

theorem spelled_of_bare (h : bare kind) : spelled kind text = text := by
  cases kind <;> simp_all [bare, spelled, opening, closing]

theorem bare_classify (w : String) : bare (classify w) := by
  unfold classify
  repeat' split
  all_goals rfl

/-- A character that starts no blank, line feed or comment. -/
def startsToken (c : Char) : Bool :=
  !isBlank c && c != '\n' && c != '/'

theorem Found.of_startsToken {kind : Kind} {text cs : List Char}
    (hspelled : spelled kind text = c :: cs) (hc : startsToken c) (hlexeme : ∀ rest, AtBlank rest →
      lexeme c (cs ++ rest) = .token kind (String.ofList text) cs.length) :
    Found kind text c cs := by
  have hc : (isBlank c = false ∧ c ≠ '\n') ∧ c ≠ '/' := by simpa [startsToken] using hc
  exact ⟨hspelled, hc.1.1, hc.1.2, fun h => absurd h hc.2, hlexeme⟩

theorem startsToken_of_isWordStart (h : isWordStart c) : startsToken c := by
  have hall : ∀ d ∈ [' ', '\t', '\r', '\n', '/'], isWordStart d = false :=
    forall_mem_of_all (by decide)
  have hc : c ∉ [' ', '\t', '\r', '\n', '/'] := by
    intro hmem
    rw [hall c hmem] at h
    exact Bool.false_ne_true h
  simpa [startsToken, isBlank, and_assoc] using hc

theorem found_word (hw : IsWord w) : ∃ c cs, Found (classify (String.ofList w)) w c cs := by
  cases w with
  | nil => exact hw.elim
  | cons c cs =>
    refine ⟨c, cs, .of_startsToken (spelled_of_bare (bare_classify _))
      (startsToken_of_isWordStart hw.1) fun rest hrest => ?_⟩
    rw [lexeme, if_pos hw.1, word_written hw hrest]

theorem found_annotated (hw : IsWord w) : Found .annotated w '@' w := by
  refine .of_startsToken (by simp [spelled, opening, closing]) (by decide) fun rest hrest => ?_
  exact annotated_written hw hrest

theorem found_quoted
    (h : quote = '"' ∧ kind = .string ∨ quote = '\'' ∧ kind = .character ∧ text.length = 1) :
    Found kind text quote (text.flatMap escape ++ [quote]) := by
  have hlexeme : ∀ rest, quoted quote kind (text.flatMap escape ++ [quote] ++ rest) =
      .token kind (String.ofList text) (text.flatMap escape ++ [quote]).length := by
    intro rest
    rw [append_assoc, singleton_append, length_append]
    refine quoted_written (h.imp And.left And.left) text rest fun hkind => ?_
    rcases h with ⟨-, rfl⟩ | ⟨-, -, hlength⟩
    · cases hkind
    · exact hlength
  rcases h with ⟨rfl, rfl⟩ | ⟨rfl, rfl, -⟩
  all_goals
    exact .of_startsToken (by simp [spelled, opening, closing]) (by decide) fun rest _ => hlexeme rest

theorem found_decimal {kind : Kind} {digits : List Char} {fractional : Bool}
    (hc : isDigit c) (hkind : Fits kind fractional) (hfirst : digits.head?.all marksNothing)
    (hdigits : ∀ tail : List Char, tail.head?.all endsDigits →
      mantissa false (digits ++ tail) = ⟨digits, digits.length, fractional, false⟩) :
    Found kind (c :: digits) c (digits ++ closing kind) := by
  have hspelled : spelled kind (c :: digits) = c :: (digits ++ closing kind) := by
    rcases hkind with ⟨hkind, -⟩ | rfl | rfl
    · cases kind <;> first | rfl | exact absurd hkind Bool.false_ne_true
    · rfl
    · rfl
  refine .of_startsToken hspelled (of_isDigit startsToken (by decide) hc) fun rest hrest => ?_
  obtain ⟨hends, hmarks⟩ := closing_ends hkind hrest
  have hmarks : (digits ++ (closing kind ++ rest)).head?.all marksNothing := by
    cases digits with
    | nil => exact hmarks
    | cons d digits => exact hfirst
  rw [append_assoc, lexeme_digit hc, number_eq_decimal hmarks,
    decimal_written (hdigits _ hends) rfl (drop_left ..) hkind hrest, length_append]

theorem found_whole (hkind : Fits kind false) (hds : IsRun isDigit ds) :
    ∃ c cs, Found kind ds c cs := by
  obtain ⟨hne, hall⟩ := hds
  cases ds with
  | nil => exact absurd rfl hne
  | cons c ds =>
    obtain ⟨hc, hds⟩ := forall_mem_cons.mp hall
    have hfirst : (ds ++ []).head?.all marksNothing := marksNothing_digits hds rfl
    rw [append_nil] at hfirst
    exact ⟨_, _, found_decimal hc hkind hfirst fun tail htail => mantissa_whole hds htail⟩

theorem found_fraction (hkind : Fits kind true) (hds : IsRun isDigit ds) (hes : IsRun isDigit es) :
    ∃ c cs, Found kind (ds ++ '.' :: es) c cs := by
  obtain ⟨hne, hall⟩ := hds
  cases ds with
  | nil => exact absurd rfl hne
  | cons c ds =>
    obtain ⟨hc, hds⟩ := forall_mem_cons.mp hall
    rw [cons_append]
    refine ⟨_, _, found_decimal hc hkind (marksNothing_digits hds rfl) fun tail htail => ?_⟩
    rw [mantissa_fraction hds hes htail, length_append, length_cons, Nat.add_assoc,
      Nat.add_comm 1]

theorem found_radix {kind : Kind} {mark : Char}
    (h : mark = 'x' ∧ kind = .hexadecimal ∧ digit = isHexDigit ∨
      mark = 'b' ∧ kind = .binary ∧ digit = isBinaryDigit) (hds : IsRun digit ds) :
    Found kind ('0' :: mark :: ds) '0' (mark :: ds) := by
  have hnot : isHexDigit '_' = false ∧ isBinaryDigit '_' = false := by decide
  have hmark : ∀ d, digit d → d ≠ '_' := by
    rintro d hd rfl
    rcases h with ⟨-, -, rfl⟩ | ⟨-, -, rfl⟩
    · exact Bool.false_ne_true (hnot.1.symm.trans hd)
    · exact Bool.false_ne_true (hnot.2.symm.trans hd)
  rcases h with ⟨rfl, rfl, rfl⟩ | ⟨rfl, rfl, rfl⟩
  all_goals
    refine .of_startsToken (spelled_of_bare rfl) (by decide) fun rest hrest => ?_
    exact radix_written hds hmark (by decide) hrest

/-- Operators and separators. -/
def symbols : List Char :=
  ['.', '=', '+', '-', '*', '/', '<', '>', '?', '!', '^', '&', '~', '$', '|', '%', ';', ':', ',',
    '\x7b', '\x7d', '(', ')', '[', ']']

/-- Only the last two rules apply to a symbol. -/
theorem lexeme_symbol (hc : c ∈ symbols)
    (h : isOperator c ∧ kind = .operator ∨ isOperator c = false ∧ separator? c = some kind) :
    lexeme c tail = .token kind c.toString 0 := by
  have hall : ∀ d ∈ symbols, isWordStart d = false ∧ isDigit d = false ∧ (d == '"') = false ∧
      (d == '\'') = false ∧ (d == '@') = false := forall_mem_of_all (by decide)
  obtain ⟨hword, hdigit, hdouble, hsingle, hat⟩ := hall c hc
  unfold lexeme
  rw [hword, hdigit, hdouble, hsingle, hat]
  rcases h with ⟨hop, rfl⟩ | ⟨hop, hsep⟩
  · simp [hop]
  · simp [hop, hsep]

theorem found_symbol (hc : c ∈ symbols) (hkind : bare kind)
    (h : isOperator c ∧ kind = .operator ∨ isOperator c = false ∧ separator? c = some kind) :
    Found kind [c] c [] := by
  have hall : ∀ d ∈ symbols, isBlank d = false ∧ d ≠ '\n' := forall_mem_of_all (by decide)
  refine ⟨spelled_of_bare hkind, (hall c hc).1, (hall c hc).2, fun _ => rfl, fun rest _ => ?_⟩
  rw [lexeme_symbol hc h]
  rfl

theorem found_separator (h : separator? c = some kind) : Found kind [c] c [] := by
  have hcopy := h
  unfold separator? at h
  split at h
  all_goals cases h
  all_goals exact found_symbol (by decide) rfl (Or.inr ⟨by decide, hcopy⟩)

/-- Every well-formed token but a line feed is found where it is written. -/
theorem found_of_shape (h : Shape kind text) (hkind : kind ≠ .newline) :
    ∃ c cs, Found kind text c cs := by
  cases h with
  | newline => exact absurd rfl hkind
  | word hw => exact found_word hw
  | annotated hw => exact ⟨_, _, found_annotated hw⟩
  | integer hkind hds => exact found_whole (Or.inl ⟨hkind, rfl⟩) hds
  | whole hkind hds => exact found_whole (Or.inr hkind) hds
  | fraction hkind hds hes => exact found_fraction (Or.inr hkind) hds hes
  | hexadecimal hds => exact ⟨_, _, found_radix (Or.inl ⟨rfl, rfl, rfl⟩) hds⟩
  | binary hds => exact ⟨_, _, found_radix (Or.inr ⟨rfl, rfl, rfl⟩) hds⟩
  | string text => exact ⟨_, _, found_quoted (Or.inl ⟨rfl, rfl⟩)⟩
  | character c => exact ⟨_, _, found_quoted (Or.inr ⟨rfl, rfl, rfl⟩)⟩
  | @operator c hc =>
    refine ⟨_, _, found_symbol ?_ rfl (Or.inl ⟨hc, rfl⟩)⟩
    have hmem := List.contains_iff_mem.mp hc
    exact List.mem_append_left [';', ':', ',', '\x7b', '\x7d', '(', ')', '[', ']'] hmem
  | separator hsep => exact ⟨_, _, found_separator hsep⟩

theorem text_of_newline (h : Shape .newline text) : text = [] := by
  generalize hkind : Kind.newline = kind at h
  cases h with
  | newline => rfl
  | word hw =>
    have hbare := bare_classify (String.ofList text)
    rw [← hkind] at hbare
    exact absurd hbare (by decide)
  | integer hdecimal => subst hkind; exact absurd hdecimal (by decide)
  | whole hfloat => subst hkind; exact absurd hfloat (by decide)
  | fraction hfloat => subst hkind; exact absurd hfloat (by decide)
  | separator hsep =>
    subst hkind
    have hbare := (found_separator hsep).spelled_eq
    exact absurd hbare (by simp [spelled, opening, closing])
  | _ => exact absurd hkind (by decide)

end Scanner

/-! ## Reading a list of tokens -/

/-- What is left behind a token: nothing, or a blank and the tokens that follow. -/
theorem sourceText_cons (t : Token) (ts : List Token) :
    ∃ tail, sourceText (t :: ts) = written t ++ tail ∧ Scanner.AtBlank tail ∧
      (tail = sourceText ts ∨ tail = ' ' :: sourceText ts) := by
  cases ts with
  | nil => exact ⟨[], by simp [sourceText, List.intercalate], Or.inl rfl, Or.inl rfl⟩
  | cons u ts =>
    refine ⟨' ' :: sourceText (u :: ts), ?_, Or.inr ⟨_, rfl⟩, Or.inr rfl⟩
    simp [sourceText, List.intercalate]

/-- What a reader of tokens sees: kind and text. -/
def content (t : Token) : Kind × String :=
  (t.kind, t.text)

/-- A scan that went well, with the given contents. -/
def Scan.Yields (s : Scan) (contents : List (Kind × String)) : Prop :=
  s.fault = none ∧ s.tokens.map content = contents

theorem Scan.Yields.after {s : Scan} {contents : List (Kind × String)} (h : s.Yields contents)
    (t : Token) : (s.after [t]).Yields (content t :: contents) := by
  obtain ⟨hfault, htokens⟩ := h
  exact ⟨hfault, by simp [Scan.after, htokens]⟩

theorem skipBlanks_eq {c : Cursor} (htext : text.head?.any Scanner.isBlank = false)
    (h : c.rest = text ∨ c.rest = ' ' :: text) : c.skipBlanks.rest = text := by
  have hnone : text.takeWhile Scanner.isBlank = [] := by
    cases text with
    | nil => rfl
    | cons d text => exact List.takeWhile_cons_of_neg (by simpa using htext)
  rcases h with h | h
  · simp [Cursor.skipBlanks, Cursor.move, h, hnone]
  · have hblank : Scanner.isBlank ' ' := by decide
    simp [Cursor.skipBlanks, Cursor.move, h, hnone, hblank]

theorem scanFrom_finish {c : Cursor} (h : c.skipBlanks.rest = []) :
    (scanFrom c).Yields [(.finish, "")] := by
  rw [scanFrom]
  split
  · exact ⟨rfl, rfl⟩
  · simp_all

theorem scanFrom_newline {c : Cursor} (h : c.skipBlanks.rest = '\n' :: rest) :
    scanFrom c = (scanFrom c.skipBlanks.newline).after [{ kind := .newline }] := by
  rw [scanFrom]
  split
  · simp_all
  · next ch rest' h' =>
    obtain ⟨rfl, rfl⟩ : ch = '\n' ∧ rest' = rest := by simpa [h] using h'.symm
    simp

theorem scanFrom_found {c : Cursor} {first : Char} (h : Scanner.Found kind text first cs)
    (hrest : Scanner.AtBlank rest) (hc : c.skipBlanks.rest = first :: (cs ++ rest)) :
    scanFrom c = (scanFrom (c.skipBlanks.move (cs.length + 1))).after
      [⟨kind, String.ofList text, c.skipBlanks.span (cs.length + 1)⟩] := by
  have hcomment : ∀ d, (d == '/' || d == '*') = true →
      (first == '/' && (cs ++ rest).head? == some d) = false := by
    intro d hd
    by_cases hslash : first = '/'
    · rw [h.slash hslash, List.nil_append]
      rcases hrest with rfl | ⟨more, rfl⟩
      · simp
      · have hd : d ≠ ' ' := by
          rintro rfl
          exact absurd hd (by decide)
        simp [Ne.symm hd]
    · simp [hslash]
  rw [scanFrom]
  split
  · simp_all
  · next ch rest' h' =>
    obtain ⟨rfl, rfl⟩ : ch = first ∧ rest' = cs ++ rest := by simpa [hc, eq_comm] using h'
    rw [if_neg (by simpa using h.not_feed), hcomment '/' rfl, hcomment '*' rfl,
      h.lexeme_eq rest hrest]
    rfl

theorem scanFrom_sourceText {ts : List Token} (hts : ∀ t ∈ ts, t.WellFormed) (c : Cursor)
    (hc : c.rest = sourceText ts ∨ c.rest = ' ' :: sourceText ts) :
    (scanFrom c).Yields (ts.map content ++ [(.finish, "")]) := by
  induction ts generalizing c with
  | nil => exact scanFrom_finish (skipBlanks_eq rfl hc)
  | cons t ts ih =>
    obtain ⟨ht, hts⟩ := List.forall_mem_cons.mp hts
    obtain ⟨tail, hcons, hblank, htail⟩ := sourceText_cons t ts
    rw [hcons] at hc
    by_cases hkind : t.kind = .newline
    · have htext : t.text = "" :=
        String.toList_eq_nil_iff.mp (Scanner.text_of_newline (hkind ▸ ht))
      have hwritten : written t = ['\n'] := by
        simp [written, hkind, htext, spelled, opening, closing]
      rw [hwritten] at hc
      have hskip := skipBlanks_eq rfl hc
      rw [scanFrom_newline hskip]
      have hmove : c.skipBlanks.newline.rest = tail := by
        simp [Cursor.newline, hskip]
      have hnext := (ih hts c.skipBlanks.newline (hmove ▸ htail)).after
        { kind := .newline }
      rwa [List.map_cons, content, hkind, htext]
    · obtain ⟨first, cs, h⟩ := Scanner.found_of_shape ht hkind
      have hwritten : written t = first :: cs := h.spelled_eq
      rw [hwritten] at hc
      have hskip := skipBlanks_eq (by simp [h.not_blank]) hc
      rw [scanFrom_found h hblank hskip]
      have hmove : (c.skipBlanks.move (cs.length + 1)).rest = tail := by
        simp [Cursor.move, hskip]
      have hnext := (ih hts (c.skipBlanks.move (cs.length + 1)) (hmove ▸ htail)).after
        ⟨t.kind, String.ofList t.text.toList, c.skipBlanks.span (cs.length + 1)⟩
      rwa [String.ofList_toList] at hnext ⊢

/-- The bytes of a written list of tokens are read back as the same kinds and texts, with the end of
the source behind them. -/
theorem tokenize_sourceText (file : String) (ts : List Token) (h : ∀ t ∈ ts, t.WellFormed) :
    ∃ us, tokenize file (Text.Utf8.decode (sourceBytes ts)) = .ok us ∧
      us.map content = ts.map content ++ [(.finish, "")] := by
  obtain ⟨hfault, htokens⟩ := scanFrom_sourceText h (Cursor.start (sourceText ts)) (Or.inl rfl)
  rw [sourceBytes, Text.Utf8.decode_encode]
  refine ⟨(scan (sourceText ts)).tokens, ?_, htokens⟩
  have herror : (scan (sourceText ts)).error? file = none := by
    simp [Scan.error?, scan, hfault]
  rw [tokenize, herror]

/-- Tokens that would be read otherwise without the blanks: `0 . 5 / / b "\"" 0UB`. -/
def adjoining : List Token := [
  { kind := .integer, text := String.ofList ['0'] },
  { kind := .operator, text := String.ofList ['.'] },
  { kind := .double, text := String.ofList ['5'] },
  { kind := .operator, text := String.ofList ['/'] },
  { kind := .operator, text := String.ofList ['/'] },
  { kind := classify (String.ofList ['b']), text := String.ofList ['b'] },
  { kind := .newline, text := String.ofList [] },
  { kind := .string, text := String.ofList ['"', '\n'] },
  { kind := .ubyte, text := String.ofList ['0'] }]

theorem tokenize_adjoining :
    ∃ us, tokenize "main.void" (Text.Utf8.decode (sourceBytes adjoining)) = .ok us ∧
      us.map content = adjoining.map content ++ [(.finish, "")] := by
  refine tokenize_sourceText "main.void" adjoining ?_
  have hzero : IsRun Scanner.isDigit ['0'] := by decide
  have hfive : IsRun Scanner.isDigit ['5'] := by decide
  have hword : IsWord ['b'] := by decide
  simp only [adjoining, forall_mem_cons, WellFormed, String.toList_ofList]
  exact ⟨.integer rfl hzero, .operator rfl, .whole (Or.inr rfl) hfive, .operator rfl, .operator rfl,
    .word hword, .newline, .string _, .integer rfl hzero, fun _ h => nomatch h⟩

end SsaCompiler.Token
