import MipsAssembly.Proofs.Binary64.Shortest
import MipsAssembly.Token.Numeral

/-!
# Written numerals are read

A decimal numeral that is written part by part is cut off a text part by part, whatever
follows that is no part of a word, and the number it is read as is that of its digits and its
power of ten.

## Main definitions

- `Stops` — a text does not go on with a character of a class.
- `WrittenNumeral` — the parts of a decimal numeral as they are written.
- `DecimalNumeral.SpellsPower` — a power of ten as it may be spelled.
- `DecimalNumeral.readNumeral_append` — the longest numeral at the start of a text is read.
- `WrittenNumeral.readNumeral_append` — a written numeral is read.
-/

namespace MipsAssembly

/-- A text is empty or starts with a character outside a class. -/
def Stops (p : Char → Bool) (rest : List Char) : Prop :=
  ∀ c ∈ rest.head?, p c = false

namespace Stops

variable {p q : Char → Bool} {cs rest : List Char}

@[simp] theorem nil (p : Char → Bool) : Stops p [] := by
  simp [Stops]

@[simp] theorem cons_iff {c : Char} : Stops p (c :: cs) ↔ p c = false := by
  simp [Stops]

theorem mono (h : Stops q rest) (hpq : ∀ c, p c = true → q c = true) : Stops p rest := by
  intro c hc
  have hq := h c hc
  cases hp : p c with
  | false => rfl
  | true => rw [hpq c hp] at hq; cases hq

theorem append (hcs : Stops p cs) (hrest : Stops p rest) : Stops p (cs ++ rest) := by
  cases cs with
  | nil => exact hrest
  | cons c cs => exact hcs

theorem takeWhile_eq_nil (h : Stops p rest) : rest.takeWhile p = [] := by
  cases rest with
  | nil => rfl
  | cons c rest => simp [cons_iff.mp h]

theorem takeWhile_append (h : Stops p rest) (hcs : ∀ c ∈ cs, p c = true) :
    (cs ++ rest).takeWhile p = cs := by
  rw [List.takeWhile_append_of_pos hcs, h.takeWhile_eq_nil, List.append_nil]

theorem dropWhile_append (h : Stops p rest) (hcs : ∀ c ∈ cs, p c = true) :
    (cs ++ rest).dropWhile p = rest := by
  rw [List.dropWhile_append_of_pos hcs]
  cases rest with
  | nil => rfl
  | cons c rest => simp [cons_iff.mp h]

theorem left (h : Stops p (cs ++ rest)) : Stops p cs := by
  cases cs with
  | nil => exact .nil p
  | cons c cs => exact h

theorem of_takeWhile_eq_nil (h : cs.takeWhile p = []) : Stops p cs := by
  cases cs with
  | nil => exact .nil p
  | cons c cs =>
    rw [cons_iff]
    cases hc : p c with
    | false => rfl
    | true => simp [hc] at h

theorem dropWhile (p : Char → Bool) (cs : List Char) : Stops p (cs.dropWhile p) := by
  induction cs with
  | nil => exact .nil p
  | cons c cs ih =>
    rw [List.dropWhile_cons]
    split
    · exact ih
    · next hc => exact cons_iff.mpr (by simpa using hc)

end Stops

theorem isWordChar_of_isDigit (c : Char) (h : c.isDigit = true) : isWordChar c = true := by
  simp [isWordChar, Char.isAlphanum, h]

theorem isWordChar_of_isHexDigit (c : Char) (h : isHexDigit c = true) : isWordChar c = true := by
  simp only [isHexDigit, Bool.or_eq_true, Bool.and_eq_true, decide_eq_true_eq] at h
  rcases h with (hdigit | ⟨hlow, hhigh⟩) | ⟨hlow, hhigh⟩
  · exact isWordChar_of_isDigit c hdigit
  · have hlower : c.isLower = true := Bool.and_eq_true_iff.mpr
      ⟨decide_eq_true hlow, decide_eq_true (UInt32.le_trans hhigh (by decide))⟩
    have halpha : c.isAlpha = true := Bool.or_eq_true_iff.mpr (.inr hlower)
    simp [isWordChar, Char.isAlphanum, halpha]
  · have hupper : c.isUpper = true :=
      decide_eq_true ⟨hlow, UInt32.le_trans hhigh (by decide)⟩
    have halpha : c.isAlpha = true := Bool.or_eq_true_iff.mpr (.inl hupper)
    simp [isWordChar, Char.isAlphanum, halpha]

/-- The parts of a decimal numeral as they are written: digits, digits behind a point if there
are any, and a power of ten if there is one. -/
structure WrittenNumeral where
  whole : List Char
  /-- The digits behind the point, or none where there is no point. -/
  fraction : List Char
  /-- The power of ten, if there is one. -/
  power : Option Int
  /-- Is a power of ten that is not negative written with a plus sign? -/
  plus : Bool := false
  whole_ne_nil : whole ≠ []
  isDigit_of_mem : ∀ c ∈ whole ++ fraction, c.isDigit = true

namespace WrittenNumeral

def fractionText (digits : List Char) : List Char :=
  if digits.isEmpty then [] else '.' :: digits

theorem isWordChar_of_mem_fractionText {digits : List Char}
    (hdigits : ∀ c ∈ digits, c.isDigit = true) {c : Char} (hc : c ∈ fractionText digits) :
    isWordChar c = true := by
  unfold fractionText at hc
  split at hc
  · cases hc
  · rcases List.mem_cons.mp hc with rfl | hc
    · rfl
    · exact isWordChar_of_isDigit c (hdigits c hc)

def powerText (plus : Bool) (power : Option Int) : List Char :=
  power.elim [] fun p => 'e' :: (if plus ∧ 0 ≤ p then ['+'] else []) ++ Numeral.signed p

/-- A power of ten is written with one of the signs or without. -/
theorem powerText_some_cases (plus : Bool) (p : Int) :
    (∃ n : Nat, p = n ∧ powerText plus (some p) = 'e' :: Numeral.decimal n) ∨
      (∃ n : Nat, p = n ∧ powerText plus (some p) = 'e' :: '+' :: Numeral.decimal n) ∨
      (∃ n : Nat, p = -(n : Int) ∧ powerText plus (some p) = 'e' :: '-' :: Numeral.decimal n) := by
  by_cases h : p < 0
  · refine .inr (.inr ⟨p.natAbs, by omega, ?_⟩)
    simp [powerText, Numeral.signed, h]
  · cases plus with
    | false =>
      refine .inl ⟨p.natAbs, by omega, ?_⟩
      simp [powerText, Numeral.signed, h]
    | true =>
      refine .inr (.inl ⟨p.natAbs, by omega, ?_⟩)
      simp [powerText, Numeral.signed, h, Int.not_lt.mp h]

theorem stops_fractionText (fraction : List Char) {rest : List Char}
    (h : Stops Char.isDigit rest) : Stops Char.isDigit (fractionText fraction ++ rest) := by
  cases fraction with
  | nil => exact h
  | cons c fraction => simp [fractionText]

end WrittenNumeral

namespace DecimalNumeral

open WrittenNumeral (fractionText stops_fractionText)

variable {whole fraction power rest : List Char} {p : Int}

/-- A text is a power of ten as it may be spelled; no text at all is the power zero. -/
inductive SpellsPower : List Char → Int → Prop where
  | absent : SpellsPower [] 0
  | unsigned {e : Char} {digits : List Char} :
    e = 'e' ∨ e = 'E' → digits ≠ [] → (∀ c ∈ digits, c.isDigit = true) →
    SpellsPower (e :: digits) (Numeral.value 10 digits)
  | plus {e : Char} {digits : List Char} :
    e = 'e' ∨ e = 'E' → digits ≠ [] → (∀ c ∈ digits, c.isDigit = true) →
    SpellsPower (e :: '+' :: digits) (Numeral.value 10 digits)
  | minus {e : Char} {digits : List Char} :
    e = 'e' ∨ e = 'E' → digits ≠ [] → (∀ c ∈ digits, c.isDigit = true) →
    SpellsPower (e :: '-' :: digits) (-(Numeral.value 10 digits : Int))

/-! ## Cutting a numeral off a text -/

theorem signOf_append {digits : List Char} (hne : digits ≠ [])
    (hdigits : ∀ c ∈ digits, c.isDigit = true) (rest : List Char) :
    signOf (digits ++ rest) = [] := by
  obtain ⟨c, cs, rfl⟩ := List.exists_cons_of_ne_nil hne
  have hdigit := hdigits c List.mem_cons_self
  rw [List.cons_append]
  unfold signOf
  split
  · next h =>
    cases h
    cases hdigit
  · next h =>
    cases h
    cases hdigit
  · rfl

namespace SpellsPower

theorem mem_power (h : SpellsPower power p) :
    ∀ c ∈ power, isWordChar c = true ∨ c ∈ ['+', '-'] := by
  have hmark {e : Char} (he : e = 'e' ∨ e = 'E') : isWordChar e = true := by
    rcases he with rfl | rfl <;> rfl
  intro c hc
  cases h with
  | absent => cases hc
  | @unsigned e digits he _ hdigits =>
    rcases List.mem_cons.mp hc with rfl | hc
    · exact .inl (hmark he)
    · exact .inl (isWordChar_of_isDigit c (hdigits c hc))
  | @plus e digits he _ hdigits | @minus e digits he _ hdigits =>
    rcases List.mem_cons.mp hc with rfl | hc
    · exact .inl (hmark he)
    rcases List.mem_cons.mp hc with rfl | hc
    · exact .inr (by simp)
    · exact .inl (isWordChar_of_isDigit c (hdigits c hc))

/-- A power of ten is no digit at its start, nor a point. -/
theorem head (h : SpellsPower power p) : power = [] ∨ ∃ e more, power = e :: more ∧
    (e = 'e' ∨ e = 'E') := by
  cases h with
  | absent => exact .inl rfl
  | unsigned he | plus he | minus he => exact .inr ⟨_, _, rfl, he⟩

theorem stops (h : SpellsPower power p) (hrest : Stops Char.isDigit rest) :
    Stops Char.isDigit (power ++ rest) := by
  rcases h.head with rfl | ⟨e, more, rfl, rfl | rfl⟩
  · exact hrest
  · simp
  · simp

theorem head?_ne_point (h : SpellsPower power p) (hrest : rest.head? ≠ some '.') :
    (power ++ rest).head? ≠ some '.' := by
  rcases h.head with rfl | ⟨e, more, rfl, rfl | rfl⟩
  · exact hrest
  · simp
  · simp

theorem powerOf_append (h : SpellsPower power p) (hrest : Stops isWordChar rest) :
    powerOf (power ++ rest) = power := by
  have hdigit := hrest.mono isWordChar_of_isDigit
  cases h with
  | absent =>
    cases rest with
    | nil => rfl
    | cons c rest =>
      have hne : c ≠ 'e' ∧ c ≠ 'E' := by
        constructor
        · rintro rfl
          cases Stops.cons_iff.mp hrest
        · rintro rfl
          cases Stops.cons_iff.mp hrest
      simp [DecimalNumeral.powerOf, hne]
  | unsigned he hne hdigits =>
    have htake := hdigit.takeWhile_append hdigits
    simp [DecimalNumeral.powerOf, signOf_append hne hdigits, htake, he, hne]
  | plus he hne hdigits | minus he hne hdigits =>
    have htake := hdigit.takeWhile_append hdigits
    simp [DecimalNumeral.powerOf, signOf, htake, he, hne]

theorem readExponent?_eq (h : SpellsPower power p) : Binary64.readExponent? power = some p := by
  cases h with
  | absent => rfl
  | @unsigned e digits he hne hdigits =>
    have hall := List.all_eq_true.mpr hdigits
    have hsign : Binary64.readSign digits = (false, digits) := by
      unfold Binary64.readSign
      split
      · simp at hall
      · simp at hall
      · rfl
    simp [Binary64.readExponent?, hsign, hall, he, hne]
  | plus he hne hdigits | minus he hne hdigits =>
    have hall := List.all_eq_true.mpr hdigits
    simp [Binary64.readExponent?, Binary64.readSign, hall, he, hne]

end SpellsPower

theorem fractionOf_fractionText (hfraction : ∀ c ∈ fraction, c.isDigit)
    (hdigit : Stops Char.isDigit rest) (hpoint : rest.head? ≠ some '.') :
    fractionOf (fractionText fraction ++ rest) = fractionText fraction := by
  cases fraction with
  | nil =>
    unfold fractionOf fractionText
    split
    · next h =>
      simp only [List.isEmpty_nil, if_true, List.nil_append] at h
      simp [h] at hpoint
    · rfl
  | cons c fraction =>
    have htake := hdigit.takeWhile_append hfraction
    simp only [fractionText, List.isEmpty_cons, Bool.false_eq_true, if_false, List.cons_append,
      fractionOf]
    rw [← List.cons_append, htake]
    rfl

/-- A decimal numeral is the longest one that starts a text, unless a word goes on. -/
theorem longest_append (hwhole : ∀ c ∈ whole, c.isDigit = true)
    (hfraction : ∀ c ∈ fraction, c.isDigit = true) (hpower : SpellsPower power p)
    (h : Stops isWordChar rest) :
    longest (spelling ⟨whole, fractionText fraction, power⟩ ++ rest) =
      ⟨whole, fractionText fraction, power⟩ := by
  -- The parts are cut off from the left, so each has to stop where the next one begins.
  have hdigit := hpower.stops (h.mono isWordChar_of_isDigit)
  have hpoint : (power ++ rest).head? ≠ some '.' := by
    apply hpower.head?_ne_point
    intro hhead
    have hword := h '.' hhead
    cases hword
  have htake : (whole ++ (fractionText fraction ++ (power ++ rest))).takeWhile Char.isDigit =
      whole := (stops_fractionText fraction hdigit).takeWhile_append hwhole
  have hpart := fractionOf_fractionText hfraction hdigit hpoint
  simp only [longest, spelling, List.append_assoc, htake, List.drop_left, hpart]
  rw [← List.append_assoc whole, ← List.length_append, List.drop_left, hpower.powerOf_append h]

/-- A decimal numeral is not taken for a hexadecimal one. -/
theorem append_ne_hexadecimal {n : DecimalNumeral} (hlongest : longest (n.spelling ++ rest) = n)
    (h : Stops isWordChar rest) {x : Char} (hx : x = 'x' ∨ x = 'X') (more : List Char) :
    n.spelling ++ rest ≠ '0' :: x :: more := by
  intro heq
  -- The longest decimal numeral of such a text is a zero, and the letter runs on behind it.
  have hzero : longest ('0' :: x :: more) = ⟨['0'], [], []⟩ := by
    rcases hx with rfl | rfl <;> rfl
  rw [heq, hzero] at hlongest
  rw [← hlongest] at heq
  obtain rfl : rest = x :: more := (List.cons.inj heq).2
  rcases hx with rfl | rfl <;> cases Stops.cons_iff.mp h

/-- The longest decimal numeral that starts a text is read, unless a word goes on. -/
theorem readNumeral_append {n : DecimalNumeral} (hlongest : longest (n.spelling ++ rest) = n)
    {value : Number} (hvalue : n.number? = some value) (h : Stops isWordChar rest) :
    readNumeral (n.spelling ++ rest) = .ok (.number .decimal value, n.spelling.length) := by
  have hread : readDecimal (n.spelling ++ rest) =
      .ok (.number .decimal value, n.spelling.length) := by
    simp [readDecimal, hlongest, hvalue, h.takeWhile_eq_nil]
  unfold readNumeral
  split
  · next more heq => exact absurd heq (append_ne_hexadecimal hlongest h (.inl rfl) more)
  · next more heq => exact absurd heq (append_ne_hexadecimal hlongest h (.inr rfl) more)
  · exact hread

/-! ## The number of a numeral -/

/-- The digits behind a point at the start of a text, and what follows them. -/
def afterPoint : List Char → List Char × List Char
  | '.' :: more => (more.takeWhile Char.isDigit, more.dropWhile Char.isDigit)
  | more => ([], more)

/-- Reading a decimal numeral, with its parts named. -/
theorem readDecimal?_eq (negative : Bool) (cs : List Char) :
    Binary64.readDecimal? negative cs =
      let whole := cs.takeWhile Char.isDigit
      let parts := afterPoint (cs.dropWhile Char.isDigit)
      if whole ++ parts.1 = [] then none
      else (Binary64.readExponent? parts.2).map fun power =>
        Binary64.ofDecimal negative (Numeral.value 10 (whole ++ parts.1))
          (power - parts.1.length) :=
  rfl

theorem afterPoint_fractionText (hfraction : ∀ c ∈ fraction, c.isDigit)
    (hpower : SpellsPower power p) :
    afterPoint (fractionText fraction ++ power) = (fraction, power) := by
  cases fraction with
  | nil => rcases hpower.head with rfl | ⟨e, more, rfl, rfl | rfl⟩ <;> rfl
  | cons c fraction =>
    -- Neither the end of the text nor the letter of the power is a digit.
    have hstop := hpower.stops (Stops.nil Char.isDigit)
    rw [List.append_nil] at hstop
    exact congrArg₂ Prod.mk (hstop.takeWhile_append hfraction) (hstop.dropWhile_append hfraction)

/-- A decimal numeral reads as the number of its digits and its power of ten. -/
theorem readDecimal?_spelling (hne : whole ≠ []) (hwhole : ∀ c ∈ whole, c.isDigit = true)
    (hfraction : ∀ c ∈ fraction, c.isDigit = true) (hpower : SpellsPower power p)
    (negative : Bool) :
    Binary64.readDecimal? negative (spelling ⟨whole, fractionText fraction, power⟩) =
      some (Binary64.ofDecimal negative (Numeral.value 10 (whole ++ fraction))
        (p - fraction.length)) := by
  have hstop := stops_fractionText fraction (hpower.stops (Stops.nil Char.isDigit))
  rw [List.append_nil] at hstop
  have hdigits : whole ++ fraction ≠ [] := by simp [hne]
  rw [readDecimal?_eq, spelling, List.append_assoc, hstop.takeWhile_append hwhole,
    hstop.dropWhile_append hwhole, afterPoint_fractionText hfraction hpower]
  simp only [if_neg hdigits, hpower.readExponent?_eq, Option.map_some]

end DecimalNumeral

namespace WrittenNumeral

/-- The spelling of a numeral, part by part. -/
def numeral (w : WrittenNumeral) : DecimalNumeral :=
  ⟨w.whole, fractionText w.fraction, powerText w.plus w.power⟩

/-- The digits of a numeral and the power of ten of the last one. -/
def decimal (w : WrittenNumeral) : Decimal :=
  ⟨Numeral.value 10 (w.whole ++ w.fraction), w.power.getD 0 - w.fraction.length⟩

variable {rest : List Char}

theorem isDigit_of_mem_whole (w : WrittenNumeral) : ∀ c ∈ w.whole, c.isDigit = true :=
  fun c hc => w.isDigit_of_mem c (List.mem_append_left _ hc)

theorem isDigit_of_mem_fraction (w : WrittenNumeral) : ∀ c ∈ w.fraction, c.isDigit = true :=
  fun c hc => w.isDigit_of_mem c (List.mem_append_right _ hc)

theorem spellsPower_powerText (plus : Bool) (power : Option Int) :
    DecimalNumeral.SpellsPower (powerText plus power) (power.getD 0) := by
  cases power with
  | none => exact .absent
  | some p =>
    have hvalue (n : Nat) : Numeral.value 10 (Numeral.decimal n) = n := Numeral.value_decimal n
    rcases powerText_some_cases plus p with ⟨n, rfl, htext⟩ | ⟨n, rfl, htext⟩ | ⟨n, rfl, htext⟩
    · have h := DecimalNumeral.SpellsPower.unsigned (e := 'e') (.inl rfl)
        (Numeral.decimal_ne_nil n) (Numeral.isDigit_of_mem_decimal n)
      rwa [hvalue, ← htext] at h
    · have h := DecimalNumeral.SpellsPower.plus (e := 'e') (.inl rfl)
        (Numeral.decimal_ne_nil n) (Numeral.isDigit_of_mem_decimal n)
      rwa [hvalue, ← htext] at h
    · have h := DecimalNumeral.SpellsPower.minus (e := 'e') (.inl rfl)
        (Numeral.decimal_ne_nil n) (Numeral.isDigit_of_mem_decimal n)
      rwa [hvalue, ← htext] at h

/-- A written numeral is the longest one that starts a text, unless a word goes on. -/
theorem longest_append (w : WrittenNumeral) (h : Stops isWordChar rest) :
    DecimalNumeral.longest (w.numeral.spelling ++ rest) = w.numeral :=
  DecimalNumeral.longest_append w.isDigit_of_mem_whole w.isDigit_of_mem_fraction
    (spellsPower_powerText w.plus w.power) h

/-- A written numeral reads as the number of its digits and its power of ten. -/
theorem readDecimal?_spelling (w : WrittenNumeral) (negative : Bool) :
    Binary64.readDecimal? negative w.numeral.spelling =
      some (Binary64.ofDecimal negative w.decimal.digits w.decimal.exponent) :=
  DecimalNumeral.readDecimal?_spelling w.whole_ne_nil w.isDigit_of_mem_whole
    w.isDigit_of_mem_fraction (spellsPower_powerText w.plus w.power) negative

/-- A written numeral is read, whatever follows that is no part of a word. -/
theorem readNumeral_append (w : WrittenNumeral) {value : Number}
    (hvalue : w.numeral.number? = some value) (h : Stops isWordChar rest) :
    readNumeral (w.numeral.spelling ++ rest) =
      .ok (.number .decimal value, w.numeral.spelling.length) :=
  DecimalNumeral.readNumeral_append (w.longest_append h) hvalue h

theorem exists_spelling_eq_cons (w : WrittenNumeral) :
    ∃ c cs, w.numeral.spelling = c :: cs ∧ c.isDigit = true := by
  obtain ⟨c, cs, hwhole⟩ := List.exists_cons_of_ne_nil w.whole_ne_nil
  have hdigit := w.isDigit_of_mem_whole c (hwhole ▸ List.mem_cons_self)
  refine ⟨c, cs ++ fractionText w.fraction ++ powerText w.plus w.power, ?_, hdigit⟩
  simp [numeral, DecimalNumeral.spelling, hwhole]

def ofNat (n : Nat) : WrittenNumeral where
  whole := Numeral.decimal n
  fraction := []
  power := none
  whole_ne_nil := Numeral.decimal_ne_nil n
  isDigit_of_mem := by simpa using Numeral.isDigit_of_mem_decimal n

theorem spelling_ofNat (n : Nat) : (ofNat n).numeral.spelling = Numeral.decimal n := by
  simp [ofNat, numeral, DecimalNumeral.spelling, fractionText, powerText]

theorem number?_ofNat {n : Nat} (h : n < integerBound) :
    (ofNat n).numeral.number? = some (.integer n) := by
  simp [ofNat, numeral, DecimalNumeral.number?, fractionText, powerText, h]

theorem isEmpty_fraction_and_power (w : WrittenNumeral)
    (hreal : w.fraction ≠ [] ∨ w.power ≠ none) :
    (w.numeral.fraction.isEmpty && w.numeral.power.isEmpty) = false := by
  rcases hreal with hfraction | hpower
  · simp [numeral, fractionText, hfraction]
  · obtain ⟨p, hp⟩ := Option.ne_none_iff_exists'.mp hpower
    simp [numeral, powerText, hp]

/-- A numeral with a point or a power of ten stands for the magnitude of its digits. -/
theorem number?_of_denotes (w : WrittenNumeral) (hreal : w.fraction ≠ [] ∨ w.power ≠ none)
    {m : Binary64.Magnitude} (hm : w.decimal.Denotes m) :
    w.numeral.number? = some (.real (.finite false m)) := by
  have hparts := w.isEmpty_fraction_and_power hreal
  have hvalue : Binary64.ofDecimal false w.decimal.digits w.decimal.exponent =
      .finite false m := by
    unfold Binary64.ofDecimal
    rw [hm]
  simp only [DecimalNumeral.number?, hparts, readDecimal?_spelling, hvalue]
  rfl

end WrittenNumeral

end MipsAssembly
