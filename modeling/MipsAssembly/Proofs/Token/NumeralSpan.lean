import Mathlib.Data.List.TakeWhile
import MipsAssembly.Proofs.Except
import MipsAssembly.Proofs.Token.Numeral

/-!
# Spans of numerals

A span of a text is a numeral if it has one of three forms: digits in base sixteen behind `0x`,
digits in base ten, or such digits with a fraction or a power of ten behind them.  The forms say
what number a span stands for, without regard to how it is cut off a text.

Where a text starts with a digit, reading a numeral takes exactly the span of this kind behind
which no word goes on.

## Main definitions

- `Number.SpelledBy` — a span is a numeral that stands for a number.
- `readNumeral_eq_ok_iff` — reading takes the span behind which no word goes on.
-/

namespace MipsAssembly

/-- A span is a numeral in a radix that stands for a number. -/
inductive Number.SpelledBy : Radix → Number → List Char → Prop where
  | hexadecimal {x : Char} {digits : List Char} :
    x = 'x' ∨ x = 'X' → digits ≠ [] → (∀ c ∈ digits, isHexDigit c = true) →
    Numeral.value 16 digits < integerBound →
    SpelledBy .hexadecimal (.integer (Numeral.value 16 digits)) ('0' :: x :: digits)
  | integer {digits : List Char} :
    digits ≠ [] → (∀ c ∈ digits, c.isDigit = true) → Numeral.value 10 digits < integerBound →
    SpelledBy .decimal (.integer (Numeral.value 10 digits)) digits
  -- The nearest number to the digits without the point, times a power of ten.
  | real {whole fraction power : List Char} {p : Int} {m : Binary64.Magnitude} :
    whole ≠ [] → (∀ c ∈ whole ++ fraction, c.isDigit = true) →
    DecimalNumeral.SpellsPower power p → fraction ≠ [] ∨ power ≠ [] →
    Binary64.nearestDecimal? (Numeral.value 10 (whole ++ fraction)) (p - fraction.length) =
      some m →
    SpelledBy .decimal (.real (.finite false m))
      (whole ++ WrittenNumeral.fractionText fraction ++ power)

theorem drop_length_takeWhile (p : Char → Bool) (cs : List Char) :
    cs.drop (cs.takeWhile p).length = cs.dropWhile p := by
  have h : (cs.takeWhile p ++ cs.dropWhile p).drop (cs.takeWhile p).length = cs.dropWhile p :=
    List.drop_left
  rwa [List.takeWhile_append_dropWhile] at h

namespace DecimalNumeral

variable {cs rest : List Char}

/-! ## The parts that are cut off -/

theorem fractionOf_spec (cs : List Char) :
    ∃ digits rest, (∀ c ∈ digits, c.isDigit = true) ∧
      fractionOf cs = WrittenNumeral.fractionText digits ∧ cs = fractionOf cs ++ rest := by
  unfold fractionOf
  split
  · next more =>
    refine ⟨more.takeWhile Char.isDigit, ?_⟩
    have hdigits : ∀ c ∈ more.takeWhile Char.isDigit, c.isDigit = true :=
      fun _ => List.mem_takeWhile_imp
    dsimp only
    split
    · next hempty =>
      exact ⟨'.' :: more, hdigits, by simp [WrittenNumeral.fractionText, hempty], rfl⟩
    · next hempty =>
      refine ⟨more.dropWhile Char.isDigit, hdigits, ?_, ?_⟩
      · simp [WrittenNumeral.fractionText, hempty]
      · rw [List.cons_append, List.takeWhile_append_dropWhile]
  · exact ⟨[], cs, by simp, rfl, rfl⟩

theorem signOf_spec (cs : List Char) :
    (signOf cs = [] ∨ signOf cs = ['+'] ∨ signOf cs = ['-']) ∧
      cs = signOf cs ++ cs.drop (signOf cs).length := by
  unfold signOf
  split
  · exact ⟨.inr (.inl rfl), rfl⟩
  · exact ⟨.inr (.inr rfl), rfl⟩
  · exact ⟨.inl rfl, rfl⟩

theorem powerOf_spec (cs : List Char) :
    ∃ p rest, SpellsPower (powerOf cs) p ∧ cs = powerOf cs ++ rest := by
  cases cs with
  | nil => exact ⟨0, [], .absent, rfl⟩
  | cons e more =>
    obtain ⟨hsign, hmore⟩ := signOf_spec more
    have hdigits : ∀ c ∈ (more.drop (signOf more).length).takeWhile Char.isDigit,
        c.isDigit = true := fun _ => List.mem_takeWhile_imp
    unfold powerOf
    dsimp only
    split
    · next hpower =>
      simp only [Bool.and_eq_true, Bool.or_eq_true, decide_eq_true_eq, Bool.not_eq_true',
        List.isEmpty_eq_false_iff] at hpower
      obtain ⟨he, hne⟩ := hpower
      have hrest : e :: more =
          e :: (signOf more ++ (more.drop (signOf more).length).takeWhile Char.isDigit) ++
            (more.drop (signOf more).length).dropWhile Char.isDigit := by
        rw [List.cons_append, List.append_assoc, List.takeWhile_append_dropWhile, ← hmore]
      refine Exists.imp (fun p hp => ⟨_, hp, hrest⟩) ?_
      rcases hsign with hsign | hsign | hsign
      · rw [hsign] at hne hdigits ⊢
        exact ⟨_, .unsigned he hne hdigits⟩
      · rw [hsign] at hne hdigits ⊢
        exact ⟨_, .plus he hne hdigits⟩
      · rw [hsign] at hne hdigits ⊢
        exact ⟨_, .minus he hne hdigits⟩
    · exact ⟨0, _, .absent, rfl⟩

/-- The longest decimal numeral at the start of a text has the parts of one, and the text goes on
behind it. -/
theorem longest_spec (cs : List Char) :
    ∃ fraction p rest, (∀ c ∈ fraction, c.isDigit = true) ∧
      longest cs = ⟨cs.takeWhile Char.isDigit, WrittenNumeral.fractionText fraction,
        (longest cs).power⟩ ∧
      SpellsPower (longest cs).power p ∧ cs = (longest cs).spelling ++ rest := by
  obtain ⟨fraction, afterFraction, hdigits, hfraction, hbehind⟩ :=
    fractionOf_spec (cs.dropWhile Char.isDigit)
  obtain ⟨p, rest, hpower, hrest⟩ := powerOf_spec afterFraction
  have hwhole := drop_length_takeWhile Char.isDigit cs
  have hcs : cs = cs.takeWhile Char.isDigit ++ fractionOf (cs.dropWhile Char.isDigit) ++
      afterFraction := by
    rw [List.append_assoc, ← hbehind, List.takeWhile_append_dropWhile]
  have hdrop : cs.drop ((cs.takeWhile Char.isDigit).length +
      (fractionOf (cs.dropWhile Char.isDigit)).length) = afterFraction :=
    (congrArg (List.drop _) hcs).trans (List.drop_left' List.length_append)
  have hlongest : longest cs = ⟨cs.takeWhile Char.isDigit,
      fractionOf (cs.dropWhile Char.isDigit), powerOf afterFraction⟩ := by
    simp only [longest, hwhole, hdrop]
  refine ⟨fraction, p, rest, hdigits, ?_, ?_, ?_⟩
  · rw [hlongest, hfraction]
  · rw [hlongest]
    exact hpower
  · rw [hlongest, spelling, List.append_assoc, ← hrest]
    exact hcs

/-! ## The number of a span -/

variable {whole fraction power : List Char} {p : Int} {value : Number}

theorem isEmpty_fractionText (digits : List Char) :
    (WrittenNumeral.fractionText digits).isEmpty = digits.isEmpty := by
  cases digits <;> rfl

/-- The number of a numeral is the one that its parts stand for. -/
theorem spelledBy_of_number? (hne : whole ≠ []) (hwhole : ∀ c ∈ whole, c.isDigit = true)
    (hfraction : ∀ c ∈ fraction, c.isDigit = true) (hpower : SpellsPower power p)
    (h : number? ⟨whole, WrittenNumeral.fractionText fraction, power⟩ = some value) :
    value.SpelledBy .decimal (spelling ⟨whole, WrittenNumeral.fractionText fraction, power⟩) := by
  simp only [number?, isEmpty_fractionText,
    readDecimal?_spelling hne hwhole hfraction hpower] at h
  split at h
  · next hempty =>
    simp only [Bool.and_eq_true, List.isEmpty_iff] at hempty
    obtain ⟨rfl, rfl⟩ := hempty
    split at h
    · next hbound =>
      cases h
      have hspan : spelling ⟨whole, WrittenNumeral.fractionText [], []⟩ = whole := by
        simp [spelling, WrittenNumeral.fractionText]
      rw [hspan]
      exact .integer hne hwhole hbound
    · cases h
  · next hparts =>
    have hreal : fraction ≠ [] ∨ power ≠ [] := by
      simp only [Bool.and_eq_true, List.isEmpty_iff, not_and_or] at hparts
      exact hparts
    unfold Binary64.ofDecimal at h
    split at h
    · next m hm =>
      cases h
      exact .real hne (List.forall_mem_append.mpr ⟨hwhole, hfraction⟩) hpower hreal hm
    · cases h

theorem number?_of_digits (h : Numeral.value 10 whole < integerBound) :
    number? ⟨whole, WrittenNumeral.fractionText [], []⟩ =
      some (.integer (Numeral.value 10 whole)) := by
  simp [number?, WrittenNumeral.fractionText, h]

theorem number?_of_nearest (hne : whole ≠ []) (hwhole : ∀ c ∈ whole, c.isDigit = true)
    (hfraction : ∀ c ∈ fraction, c.isDigit = true) (hpower : SpellsPower power p)
    (hreal : fraction ≠ [] ∨ power ≠ []) {m : Binary64.Magnitude}
    (hm : Binary64.nearestDecimal? (Numeral.value 10 (whole ++ fraction))
      (p - fraction.length) = some m) :
    number? ⟨whole, WrittenNumeral.fractionText fraction, power⟩ =
      some (.real (.finite false m)) := by
  have hparts : (fraction.isEmpty && power.isEmpty) = false := by
    rw [Bool.and_eq_false_iff]
    simpa using hreal
  have hvalue : Binary64.ofDecimal false (Numeral.value 10 (whole ++ fraction))
      (p - fraction.length) = .finite false m := by
    unfold Binary64.ofDecimal
    rw [hm]
  simp only [number?, isEmpty_fractionText, hparts,
    readDecimal?_spelling hne hwhole hfraction hpower, hvalue]
  rfl

end DecimalNumeral

/-! ## Reading a numeral -/

variable {rest : List Char} {radix : Radix} {value : Number}

namespace Number.SpelledBy

/-- A numeral starts with a digit. -/
theorem exists_cons {span : List Char} (h : value.SpelledBy radix span) :
    ∃ c word, span = c :: word ∧ c.isDigit = true := by
  cases h with
  | hexadecimal => exact ⟨_, _, rfl, rfl⟩
  | integer hne hdigits =>
    obtain ⟨c, word, rfl⟩ := List.exists_cons_of_ne_nil hne
    exact ⟨c, word, rfl, hdigits c List.mem_cons_self⟩
  | real hne hdigits =>
    obtain ⟨c, word, rfl⟩ := List.exists_cons_of_ne_nil hne
    exact ⟨c, _, rfl, hdigits c List.mem_cons_self⟩

/-- A numeral is made of parts of words and signs. -/
theorem mem_span {span : List Char} (h : value.SpelledBy radix span) :
    ∀ c ∈ span, isWordChar c = true ∨ c ∈ ['+', '-'] := by
  intro c hc
  cases h with
  | @hexadecimal x digits hx _ hdigits =>
    refine .inl ?_
    rcases List.mem_cons.mp hc with rfl | hc
    · rfl
    rcases List.mem_cons.mp hc with rfl | hc
    · rcases hx with rfl | rfl <;> rfl
    · exact isWordChar_of_isHexDigit c (hdigits c hc)
  | integer _ hdigits => exact .inl (isWordChar_of_isDigit c (hdigits c hc))
  | @real whole fraction power p m _ hdigits hpower =>
    obtain ⟨hwhole, hfraction⟩ := List.forall_mem_append.mp hdigits
    rcases List.mem_append.mp hc with hc | hc
    · refine .inl ?_
      rcases List.mem_append.mp hc with hc | hc
      · exact isWordChar_of_isDigit c (hwhole c hc)
      · exact WrittenNumeral.isWordChar_of_mem_fractionText hfraction hc
    · exact hpower.mem_power c hc

/-- A numeral behind which no word goes on is read. -/
theorem readNumeral_append {span : List Char} (h : value.SpelledBy radix span)
    (hrest : Stops isWordChar rest) :
    readNumeral (span ++ rest) = .ok (.number radix value, span.length) := by
  cases h with
  | @hexadecimal x digits hx hne hdigits hbound =>
    have htake := (hrest.mono isWordChar_of_isHexDigit).takeWhile_append hdigits
    have hread : readHexadecimal (digits ++ rest) =
        .ok (.number .hexadecimal (.integer (Numeral.value 16 digits)), digits.length) := by
      simp [readHexadecimal, htake, hrest.takeWhile_eq_nil, hne, hbound]
    rcases hx with rfl | rfl
    · simp [readNumeral, hread, Except.map]
    · simp [readNumeral, hread, Except.map]
  | integer hne hdigits hbound =>
    have hnone : ∀ c ∈ ([] : List Char), c.isDigit = true := by simp
    have hlongest := DecimalNumeral.longest_append hdigits hnone .absent hrest
    have hread := DecimalNumeral.readNumeral_append hlongest
      (DecimalNumeral.number?_of_digits hbound) hrest
    simpa [DecimalNumeral.spelling, WrittenNumeral.fractionText] using hread
  | real hne hdigits hpower hreal hm =>
    obtain ⟨hwhole, hfraction⟩ := List.forall_mem_append.mp hdigits
    exact DecimalNumeral.readNumeral_append
      (DecimalNumeral.longest_append hwhole hfraction hpower hrest)
      (DecimalNumeral.number?_of_nearest hne hwhole hfraction hpower hreal hm) hrest

end Number.SpelledBy

/-- What is read as a numeral is one, and no word goes on behind it. -/
theorem spelledBy_of_readDecimal {cs : List Char} {kind : TokenKind} {length : Nat}
    (hdigit : ∃ c more, cs = c :: more ∧ c.isDigit = true)
    (h : readDecimal cs = .ok (kind, length)) :
    ∃ radix value span rest, kind = .number radix value ∧ cs = span ++ rest ∧
      length = span.length ∧ value.SpelledBy radix span ∧ Stops isWordChar rest := by
  obtain ⟨fraction, p, rest, hfraction, hparts, hpower, hcs⟩ := DecimalNumeral.longest_spec cs
  have hne : cs.takeWhile Char.isDigit ≠ [] := by
    obtain ⟨c, more, rfl, hc⟩ := hdigit
    simp [hc]
  unfold readDecimal at h
  dsimp only at h
  split at h
  · next value hvalue =>
    split at h
    · next htail =>
      cases h
      have hdrop : cs.drop (DecimalNumeral.longest cs).spelling.length = rest :=
        (congrArg (List.drop _) hcs).trans List.drop_left
      rw [hdrop, List.isEmpty_iff] at htail
      refine ⟨.decimal, value, _, rest, rfl, hcs, rfl, ?_, .of_takeWhile_eq_nil htail⟩
      rw [hparts] at hvalue ⊢
      exact DecimalNumeral.spelledBy_of_number? hne (fun _ => List.mem_takeWhile_imp) hfraction
        hpower hvalue
    · cases h
  · cases h

theorem spelledBy_of_readHexadecimal {x : Char} (hx : x = 'x' ∨ x = 'X') {cs : List Char}
    {result : TokenKind × Nat} (h : readHexadecimal cs = .ok result) :
    ∃ value digits rest, result = (.number .hexadecimal value, digits.length) ∧
      cs = digits ++ rest ∧ value.SpelledBy .hexadecimal ('0' :: x :: digits) ∧
      Stops isWordChar rest := by
  unfold readHexadecimal at h
  dsimp only at h
  rw [drop_length_takeWhile] at h
  split at h
  · cases h
  · next hbound =>
    cases h
    simp only [Bool.or_eq_true, decide_eq_true_eq, not_or, Nat.not_le, Bool.not_eq_true,
      Bool.not_eq_false', List.isEmpty_iff] at hbound
    obtain ⟨⟨hne, htail⟩, hvalue⟩ := hbound
    exact ⟨_, _, _, rfl, List.takeWhile_append_dropWhile.symm,
      .hexadecimal hx hne (fun _ => List.mem_takeWhile_imp) hvalue, .of_takeWhile_eq_nil htail⟩

/-- Where a text starts with a digit, a numeral is read exactly if it is one that starts the text
and behind which no word goes on. -/
theorem readNumeral_eq_ok_iff {cs : List Char} {kind : TokenKind} {length : Nat}
    (hdigit : ∃ c more, cs = c :: more ∧ c.isDigit = true) :
    readNumeral cs = .ok (kind, length) ↔
      ∃ radix value span rest, kind = .number radix value ∧ cs = span ++ rest ∧
        length = span.length ∧ value.SpelledBy radix span ∧ Stops isWordChar rest := by
  constructor
  · intro h
    unfold readNumeral at h
    split at h
    · obtain ⟨result, hread, hresult⟩ := exists_of_map_eq_ok h
      obtain ⟨value, digits, rest, rfl, rfl, hspan, hrest⟩ :=
        spelledBy_of_readHexadecimal (.inl rfl) hread
      cases hresult
      exact ⟨_, value, _, rest, rfl, rfl, rfl, hspan, hrest⟩
    · obtain ⟨result, hread, hresult⟩ := exists_of_map_eq_ok h
      obtain ⟨value, digits, rest, rfl, rfl, hspan, hrest⟩ :=
        spelledBy_of_readHexadecimal (.inr rfl) hread
      cases hresult
      exact ⟨_, value, _, rest, rfl, rfl, rfl, hspan, hrest⟩
    · exact spelledBy_of_readDecimal hdigit h
  · rintro ⟨radix, value, span, rest, rfl, rfl, rfl, hspan, hrest⟩
    exact hspan.readNumeral_append hrest

end MipsAssembly
