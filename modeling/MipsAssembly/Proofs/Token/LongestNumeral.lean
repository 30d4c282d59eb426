import MipsAssembly.Proofs.Binary64.Rounding
import MipsAssembly.Proofs.Token.Cut

/-!
# Numerals of a line

Where a token of a line starts with a digit, it is a numeral or the line is refused.  Behind `0x`
all hexadecimal digits belong to the numeral.  Otherwise its text is the longest one that starts
there and has the form of a decimal numeral.  It is refused if a word goes on behind it or if its
value is out of range.

The parts of a decimal numeral are cut off one after the other, each as long as possible.  That
this gives the longest numeral is a fact of its own: a part that stops early leaves a digit behind,
and no later part starts with one.

## Main definitions

- `IsLongestStart` — the longest start of a text among some texts.
- `DecimalNumeral.SpellsWhole`, `DecimalNumeral.SpellsReal` — the decimal numerals and their values.
- `DecimalNumeral.isLongestStart_longest` — what is cut off is the longest decimal numeral.
- `NumeralAt` — a text starts with a numeral that stands for a number.
- `CutUpTo` — a place in a line where the tokens in front of it have been cut off.
- `lexLine_at_digit` — what becomes of a line where a token starts with a digit.
-/

namespace MipsAssembly

/-! ## The longest decimal numeral -/

/-- A text starts another one, and no longer start is among some texts. -/
structure IsLongestStart (among : List Char → Prop) (start cs : List Char) : Prop where
  isPrefix : start <+: cs
  mem : among start
  length_le : ∀ other, other <+: cs → among other → other.length ≤ start.length

namespace DecimalNumeral

open WrittenNumeral (fractionText stops_fractionText)

/-- A text is a row of digits that stands for a number. -/
inductive SpellsWhole : Nat → List Char → Prop where
  | digits {digits : List Char} :
    digits ≠ [] → (∀ c ∈ digits, c.isDigit = true) →
    SpellsWhole (Numeral.value 10 digits) digits

/-- A text is a row of digits with a fraction, a power of ten or both behind it, and has an exact
value. -/
inductive SpellsReal : ℚ → List Char → Prop where
  | parts {whole fraction power : List Char} {p : Int} :
    whole ≠ [] → (∀ c ∈ whole ++ fraction, c.isDigit = true) → SpellsPower power p →
    fraction ≠ [] ∨ power ≠ [] →
    SpellsReal (Numeral.value 10 (whole ++ fraction) * 10 ^ (p - fraction.length))
      (whole ++ fractionText fraction ++ power)

/-- A text has the form of a decimal numeral. -/
def IsSpelled (cs : List Char) : Prop :=
  (∃ n, SpellsWhole n cs) ∨ ∃ q, SpellsReal q cs

variable {whole fraction power cs : List Char} {p : Int}

/-- The parts of a decimal numeral, one behind the other, have the form of one. -/
theorem isSpelled_parts (hne : whole ≠ []) (hwhole : ∀ c ∈ whole, c.isDigit = true)
    (hfraction : ∀ c ∈ fraction, c.isDigit = true) (hpower : SpellsPower power p) :
    IsSpelled (whole ++ fractionText fraction ++ power) := by
  by_cases hparts : fraction ≠ [] ∨ power ≠ []
  · exact .inr ⟨_, .parts hne (List.forall_mem_append.mpr ⟨hwhole, hfraction⟩) hpower hparts⟩
  · simp only [not_or, not_not] at hparts
    obtain ⟨rfl, rfl⟩ := hparts
    refine .inl ⟨Numeral.value 10 whole, ?_⟩
    simpa [fractionText] using SpellsWhole.digits hne hwhole

theorem IsSpelled.exists_parts (h : IsSpelled cs) :
    ∃ whole fraction power p, cs = whole ++ fractionText fraction ++ power ∧
      (∀ c ∈ whole, c.isDigit = true) ∧ (∀ c ∈ fraction, c.isDigit = true) ∧
      SpellsPower power p := by
  rcases h with ⟨_, h⟩ | ⟨_, h⟩
  · cases h with
    | digits hne hdigits =>
      exact ⟨cs, [], [], 0, by simp [fractionText], hdigits, by simp, .absent⟩
  · cases h with
    | parts hne hdigits hpower _ =>
      obtain ⟨hwhole, hfraction⟩ := List.forall_mem_append.mp hdigits
      exact ⟨_, _, _, _, rfl, hwhole, hfraction, hpower⟩

/-- A run with something behind it that is no part of it is no longer than all of the run at the
start of a text, with something behind it that is as long. -/
theorem prefix_takeWhile_append {among : Char → Bool} {run behind tail : List Char}
    (hrun : ∀ c ∈ run, among c = true) (hbehind : Stops among behind)
    (h : run ++ behind <+: cs) (htail : behind <+: cs.dropWhile among → behind <+: tail) :
    run ++ behind <+: cs.takeWhile among ++ tail := by
  obtain ⟨more, rfl⟩ := h
  cases behind with
  | nil =>
    rw [List.append_nil, List.takeWhile_append_of_pos hrun, List.append_assoc]
    exact List.prefix_append _ _
  | cons c behind =>
    have hstops : Stops among (c :: behind ++ more) := hbehind
    rw [List.append_assoc, hstops.dropWhile_append hrun] at htail
    rw [List.append_assoc, hstops.takeWhile_append hrun]
    exact (List.prefix_append_right_inj run).mpr (htail (List.prefix_append _ _))

theorem SpellsPower.prefix_powerOf (hpower : SpellsPower power p) (h : power <+: cs) :
    power <+: powerOf cs := by
  obtain ⟨more, rfl⟩ := h
  cases hpower with
  | absent => exact List.nil_prefix
  | @unsigned e digits he hne hdigits =>
    have hsign := signOf_append hne hdigits more
    simp [powerOf, hsign, he, hne, List.takeWhile_append_of_pos hdigits]
  | @plus e digits he hne hdigits | @minus e digits he hne hdigits =>
    simp [powerOf, signOf, he, hne, List.takeWhile_append_of_pos hdigits]

/-- A fraction with a power of ten behind it starts with no digit. -/
theorem stops_fractionText_append (fraction : List Char) (hpower : SpellsPower power p) :
    Stops Char.isDigit (fractionText fraction ++ power) := by
  have hstops := hpower.stops (.nil Char.isDigit)
  rw [List.append_nil] at hstops
  exact stops_fractionText fraction hstops

/-- No fraction with a power of ten behind it is longer than those that are cut off. -/
theorem prefix_fractionOf_append (hfraction : ∀ c ∈ fraction, c.isDigit = true)
    (hpower : SpellsPower power p) (h : fractionText fraction ++ power <+: cs) :
    fractionText fraction ++ power <+:
      fractionOf cs ++ powerOf (cs.drop (fractionOf cs).length) := by
  cases fraction with
  | nil =>
    have hnone : fractionText [] ++ power = power := rfl
    rw [hnone] at h ⊢
    rcases hpower.head with rfl | ⟨e, digits, rfl, he⟩
    · exact List.nil_prefix
    · -- The letter of the power is no point, so there is no fraction in front of it.
      obtain ⟨more, rfl⟩ := h
      have hfractionOf : fractionOf (e :: digits ++ more) = [] := by
        rcases he with rfl | rfl <;> rfl
      rw [hfractionOf]
      exact hpower.prefix_powerOf (List.prefix_append _ _)
  | cons d ds =>
    obtain ⟨more, rfl⟩ := h
    set behind := d :: ds ++ power ++ more with hbehind
    have htext : fractionText (d :: ds) ++ power ++ more = '.' :: behind := rfl
    have hne : (behind.takeWhile Char.isDigit).isEmpty = false := by
      simp [hbehind, hfraction d List.mem_cons_self]
    have hfractionOf : fractionOf ('.' :: behind) = '.' :: behind.takeWhile Char.isDigit := by
      simp only [fractionOf, hne, Bool.false_eq_true, if_false]
    have hdrop : ('.' :: behind).drop ('.' :: behind.takeWhile Char.isDigit).length =
        behind.dropWhile Char.isDigit :=
      drop_length_takeWhile Char.isDigit behind
    have hstops := stops_fractionText_append [] hpower
    rw [htext, hfractionOf, hdrop]
    refine List.cons_prefix_cons.mpr ⟨rfl, ?_⟩
    exact prefix_takeWhile_append hfraction hstops (List.prefix_append _ more)
      hpower.prefix_powerOf

/-- What is cut off is the longest decimal numeral that starts a text. -/
theorem isLongestStart_longest (hdigit : ∃ c more, cs = c :: more ∧ c.isDigit = true) :
    IsLongestStart IsSpelled (longest cs).spelling cs := by
  obtain ⟨fraction, p, rest, hfraction, hparts, hpower, hcs⟩ := longest_spec cs
  have hne : cs.takeWhile Char.isDigit ≠ [] := by
    obtain ⟨c, more, rfl, hc⟩ := hdigit
    simp [hc]
  refine ⟨⟨rest, hcs.symm⟩, ?_, ?_⟩
  · rw [hparts]
    exact isSpelled_parts hne (fun _ => List.mem_takeWhile_imp) hfraction hpower
  · intro other hprefix hother
    obtain ⟨whole, fraction, power, p, rfl, hwhole, hfraction, hpower⟩ := hother.exists_parts
    rw [List.append_assoc] at hprefix
    have hlongest : (longest cs).spelling = cs.takeWhile Char.isDigit ++
        (fractionOf (cs.dropWhile Char.isDigit) ++ powerOf ((cs.dropWhile Char.isDigit).drop
          (fractionOf (cs.dropWhile Char.isDigit)).length)) := by
      simp only [longest, spelling, List.append_assoc, ← List.drop_drop, drop_length_takeWhile]
    apply List.IsPrefix.length_le
    rw [hlongest, List.append_assoc]
    exact prefix_takeWhile_append hwhole (stops_fractionText_append fraction hpower) hprefix
      (prefix_fractionOf_append hfraction hpower)

/-- The parts of a decimal numeral behind which no word goes on are the longest one that starts the
text, and the text does not start with a hexadecimal one. -/
theorem isLongestStart_of_stops {rest : List Char} (hne : whole ≠ [])
    (hwhole : ∀ c ∈ whole, c.isDigit = true) (hfraction : ∀ c ∈ fraction, c.isDigit = true)
    (hpower : SpellsPower power p) (hrest : Stops isWordChar rest) :
    IsLongestStart IsSpelled (whole ++ fractionText fraction ++ power)
        (whole ++ fractionText fraction ++ power ++ rest) ∧
      ∀ x more, x = 'x' ∨ x = 'X' →
        whole ++ fractionText fraction ++ power ++ rest ≠ '0' :: x :: more := by
  have hlongest := longest_append hwhole hfraction hpower hrest
  unfold spelling at hlongest
  refine ⟨?_, fun x more hx => append_ne_hexadecimal hlongest hrest hx more⟩
  obtain ⟨c, cs, rfl⟩ := List.exists_cons_of_ne_nil hne
  have hdigit : ∃ d more, c :: cs ++ fractionText fraction ++ power ++ rest = d :: more ∧
      d.isDigit = true := ⟨c, _, rfl, hwhole c List.mem_cons_self⟩
  have hstart := isLongestStart_longest hdigit
  rwa [hlongest] at hstart

end DecimalNumeral

/-! ## The numeral at the start of a text -/

/-- A text starts with a numeral in a radix that stands for a number and has a length. -/
inductive NumeralAt (text : List Char) : Radix → Number → (length : Nat) → Prop where
  | hexadecimal {x : Char} {digits rest : List Char} :
    text = '0' :: x :: (digits ++ rest) → x = 'x' ∨ x = 'X' →
    (∀ c ∈ digits, isHexDigit c = true) → Stops isHexDigit rest →
    digits ≠ [] → Stops isWordChar rest → Numeral.value 16 digits ≤ 2 ^ 63 - 1 →
    NumeralAt text .hexadecimal (.integer (Numeral.value 16 digits)) (digits.length + 2)
  | integer {n : Nat} {numeral rest : List Char} :
    (∀ x more, x = 'x' ∨ x = 'X' → text ≠ '0' :: x :: more) →
    IsLongestStart DecimalNumeral.IsSpelled numeral text → text = numeral ++ rest →
    Stops isWordChar rest → DecimalNumeral.SpellsWhole n numeral → n ≤ 2 ^ 63 - 1 →
    NumeralAt text .decimal (.integer n) numeral.length
  | real {q : ℚ} {m : Binary64.Magnitude} {numeral rest : List Char} :
    (∀ x more, x = 'x' ∨ x = 'X' → text ≠ '0' :: x :: more) →
    IsLongestStart DecimalNumeral.IsSpelled numeral text → text = numeral ++ rest →
    Stops isWordChar rest → DecimalNumeral.SpellsReal q numeral → Binary64.RoundsTo q m →
    NumeralAt text .decimal (.real (.finite false m)) numeral.length

theorem lt_integerBound_iff (n : Nat) : n < integerBound ↔ n ≤ 2 ^ 63 - 1 := by
  have hbound : integerBound = 2 ^ 63 := rfl
  omega

variable {text : List Char} {radix : Radix} {value : Number} {length : Nat}

/-- A numeral at the start of a text is a span that spells it, behind which no word goes on. -/
theorem numeralAt_iff :
    NumeralAt text radix value length ↔
      ∃ span rest, text = span ++ rest ∧ length = span.length ∧ value.SpelledBy radix span ∧
        Stops isWordChar rest := by
  constructor
  · rintro (⟨rfl, hx, hdigits, -, hne, hrest, hbound⟩ | ⟨-, -, rfl, hrest, hwhole, hbound⟩ |
      ⟨-, -, rfl, hrest, hreal, hm⟩)
    · exact ⟨_, _, rfl, rfl, .hexadecimal hx hne hdigits ((lt_integerBound_iff _).mpr hbound),
        hrest⟩
    · obtain ⟨hne, hdigits⟩ := hwhole
      exact ⟨_, _, rfl, rfl, .integer hne hdigits ((lt_integerBound_iff _).mpr hbound), hrest⟩
    · obtain ⟨hne, hdigits, hpower, hparts⟩ := hreal
      exact ⟨_, _, rfl, rfl, .real hne hdigits hpower hparts
        (Binary64.nearestDecimal?_eq_some_iff.mpr hm), hrest⟩
  · rintro ⟨span, rest, rfl, rfl, hspan, hrest⟩
    cases hspan with
    | hexadecimal hx hne hdigits hbound =>
      exact .hexadecimal rfl hx hdigits (hrest.mono isWordChar_of_isHexDigit) hne hrest
        ((lt_integerBound_iff _).mp hbound)
    | integer hne hdigits hbound =>
      have hnone : ∀ c ∈ ([] : List Char), c.isDigit = true := by simp
      obtain ⟨hstart, hdecimal⟩ :=
        DecimalNumeral.isLongestStart_of_stops hne hdigits hnone .absent hrest
      simp only [WrittenNumeral.fractionText, List.isEmpty_nil, if_true, List.append_nil]
        at hstart hdecimal
      exact .integer hdecimal hstart rfl hrest (.digits hne hdigits)
        ((lt_integerBound_iff _).mp hbound)
    | real hne hdigits hpower hparts hm =>
      obtain ⟨hwhole, hfraction⟩ := List.forall_mem_append.mp hdigits
      obtain ⟨hstart, hdecimal⟩ :=
        DecimalNumeral.isLongestStart_of_stops hne hwhole hfraction hpower hrest
      exact .real hdecimal hstart rfl hrest (.parts hne hdigits hpower hparts)
        (Binary64.nearestDecimal?_eq_some_iff.mp hm)

/-! ## Places where tokens start -/

/-- A line is cut up to a place: its column, what stands there, and the tokens in front of it. -/
inductive CutUpTo (row : Nat) (line : List Char) : (column : Nat) → List Char → List Token → Prop
    where
  | start : CutUpTo row line 1 line []
  | blank {column : Nat} {c : Char} {rest : List Char} {tokens : List Token} :
    CutUpTo row line column (c :: rest) tokens → isBlank c = true →
    CutUpTo row line (column + 1) rest tokens
  | token {column more : Nat} {c : Char} {rest : List Char} {tokens : List Token}
      {kind : TokenKind} :
    CutUpTo row line column (c :: rest) tokens → isBlank c = false → c ≠ '#' →
    readToken c rest = .ok (kind, more) →
    CutUpTo row line (column + (more + 1)) (rest.drop more)
      (tokens ++ [⟨kind, ⟨row, column⟩⟩])

variable {row column : Nat} {line rest : List Char} {tokens : List Token} {c : Char}

/-- The tokens of a line are those in front of a place and those from there on. -/
theorem CutUpTo.lexLine_eq (h : CutUpTo row line column rest tokens) :
    lexLine row line = (lexFrom row column 0 rest).map (tokens ++ ·) := by
  induction h with
  | start => exact (map_nil_append _).symm
  | blank _ hblank ih =>
    rw [ih, lexFrom, if_pos hblank]
  | @token column more c rest tokens kind _ hblank hcomment hread ih =>
    obtain ⟨word, behind, rfl, rfl, hspelled, hstops⟩ := readToken_eq_ok_iff.mp hread
    rw [ih, List.drop_left, ← List.cons_append, hspelled.lexFrom_append hstops]
    exact map_append_append tokens [_] _

/-- A token that starts with a digit is the numeral at the start of the text. -/
theorem readToken_eq_ok_iff_numeralAt (hdigit : c.isDigit = true) {kind : TokenKind} {more : Nat} :
    readToken c rest = .ok (kind, more) ↔
      ∃ radix value, kind = .number radix value ∧
        NumeralAt (c :: rest) radix value (more + 1) := by
  rw [readToken_eq_ok_iff]
  constructor
  · rintro ⟨word, behind, rfl, rfl, hspelled, hstops⟩
    cases hspelled with
    | number hspelled =>
      exact ⟨_, _, rfl, numeralAt_iff.mpr ⟨c :: word, behind, rfl, rfl, hspelled, hstops⟩⟩
    | punctuation hmark =>
      rw [ofPunctuation?_of_isWordChar (isWordChar_of_isDigit c hdigit)] at hmark
      cases hmark
    | identifier hfirst =>
      rcases Bool.or_eq_true_iff.mp hfirst with halpha | hunderscore
      · rw [isDigit_of_isAlpha halpha] at hdigit
        cases hdigit
      · rw [of_decide_eq_true hunderscore] at hdigit
        cases hdigit
    | register | directive | text => cases hdigit
  · rintro ⟨radix, value, rfl, hnumeral⟩
    obtain ⟨span, behind, htext, hlength, hspelled, hstops⟩ := numeralAt_iff.mp hnumeral
    obtain ⟨d, word, rfl, -⟩ := hspelled.exists_cons
    obtain ⟨rfl, rfl⟩ := List.cons.inj htext
    exact ⟨word, behind, rfl, Nat.succ.inj hlength, .number hspelled, hstops⟩

theorem readToken_eq_error_of_isDigit (hdigit : c.isDigit = true) {fault : LexicalFault}
    {distance : Nat} (h : readToken c rest = .error (fault, distance)) :
    distance = 0 ∧ ∃ spelling, fault = .malformedNumber spelling := by
  unfold readToken at h
  rw [ofPunctuation?_of_isWordChar (isWordChar_of_isDigit c hdigit)] at h
  dsimp only at h
  rw [if_pos hdigit] at h
  split at h
  · cases h
  · cases h
    exact ⟨rfl, _, rfl⟩

/-- Where a token starts with a digit, it is the numeral at the start of the text, and the line is
cut from behind it on.  Where there is no such numeral, the line is refused at the digit. -/
theorem lexLine_at_digit (hcut : CutUpTo row line column (c :: rest) tokens)
    (hdigit : c.isDigit = true) :
    (∀ kind more, readToken c rest = .ok (kind, more) ↔
      ∃ radix value, kind = .number radix value ∧
        NumeralAt (c :: rest) radix value (more + 1)) ∧
    (∀ radix value length, NumeralAt (c :: rest) radix value length →
      CutUpTo row line (column + length) ((c :: rest).drop length)
          (tokens ++ [⟨.number radix value, ⟨row, column⟩⟩]) ∧
        lexLine row line = (lexFrom row (column + length) 0 ((c :: rest).drop length)).map
          (tokens ++ [⟨.number radix value, ⟨row, column⟩⟩] ++ ·)) ∧
    ((∀ radix value length, ¬NumeralAt (c :: rest) radix value length) →
      ∃ spelling, lexLine row line = .error ⟨.malformedNumber spelling, ⟨row, column⟩⟩) := by
  have hblank : isBlank c = false := isBlank_of_isWordChar (isWordChar_of_isDigit c hdigit)
  have hcomment : c ≠ '#' := by
    rintro rfl
    cases hdigit
  refine ⟨fun kind more => readToken_eq_ok_iff_numeralAt hdigit, ?_, ?_⟩
  · intro radix value length hnumeral
    obtain ⟨span, behind, htext, hlength, hspelled, -⟩ := numeralAt_iff.mp hnumeral
    obtain ⟨more, rfl⟩ : ∃ more, length = more + 1 := by
      obtain ⟨d, word, rfl, -⟩ := hspelled.exists_cons
      exact ⟨word.length, hlength⟩
    have hread := (readToken_eq_ok_iff_numeralAt hdigit).mpr ⟨radix, value, rfl, hnumeral⟩
    have hnext := hcut.token hblank hcomment hread
    exact ⟨hnext, hnext.lexLine_eq⟩
  · intro hnone
    cases hread : readToken c rest with
    | ok result =>
      obtain ⟨radix, value, -, hnumeral⟩ := (readToken_eq_ok_iff_numeralAt hdigit).mp hread
      exact absurd hnumeral (hnone radix value _)
    | error failure =>
      obtain ⟨fault, distance⟩ := failure
      obtain ⟨rfl, spelling, rfl⟩ := readToken_eq_error_of_isDigit hdigit hread
      refine ⟨spelling, ?_⟩
      rw [hcut.lexLine_eq, lexFrom, hblank, if_neg Bool.false_ne_true, if_neg hcomment, hread]
      rfl

/-- The numerals of `-0x1F 2.5`: the first one stands behind a sign and in front of white space. -/
theorem lexLine_at_digit_of_two_numerals :
    let line := ['-', '0', 'x', '1', 'F', ' ', '2', '.', '5']
    let minus : Token := ⟨.minus, ⟨1, 1⟩⟩
    CutUpTo 1 line 2 ['0', 'x', '1', 'F', ' ', '2', '.', '5'] [minus] ∧
      NumeralAt ['0', 'x', '1', 'F', ' ', '2', '.', '5'] .hexadecimal (.integer 31) 4 ∧
      lexLine 1 line = (lexFrom 1 6 0 [' ', '2', '.', '5']).map
        ([minus, ⟨.number .hexadecimal (.integer 31), ⟨1, 2⟩⟩] ++ ·) := by
  have hminus : readToken '-' ['0', 'x', '1', 'F', ' ', '2', '.', '5'] = .ok (.minus, 0) := rfl
  have hstart : CutUpTo 1 ['-', '0', 'x', '1', 'F', ' ', '2', '.', '5'] 1 _ [] := .start
  have hcut := hstart.token rfl (by decide) hminus
  obtain ⟨htoken, hnext, -⟩ := lexLine_at_digit hcut rfl
  have hread : readToken '0' ['x', '1', 'F', ' ', '2', '.', '5'] =
      .ok (.number .hexadecimal (.integer 31), 3) := by decide
  obtain ⟨radix, value, hkind, hnumeral⟩ := (htoken _ _).mp hread
  obtain ⟨rfl, rfl⟩ := TokenKind.number.inj hkind
  exact ⟨hcut, hnumeral, (hnext _ _ _ hnumeral).2⟩

end MipsAssembly
