import MipsAssembly.Proofs.Token.Numeral

/-!
# Written numbers are read

The texts of integers in both radixes and of floating-point numbers, positional or with a
power of ten, are numerals, and reading them gives the numbers back.

## Main definitions

- `WrittenNumeral.Writes` — a numeral is a text for a magnitude.
- `Binary64.exists_writes_magnitudeChars` — the text of a magnitude is a numeral for it.
- `Number.Readable` — the numbers that a single token can stand for.
- `Number.Readable.readNumeral` — their numerals are read.
-/

namespace MipsAssembly

namespace WrittenNumeral

/-- No zero stands in front of other digits. -/
def ZeroAlone (w : WrittenNumeral) : Prop :=
  w.whole.head? = some '0' → w.whole.length = 1

/-- In front of a power of ten there is no digit but one before the point. -/
def SingleDigit (w : WrittenNumeral) : Prop :=
  w.power ≠ none → w.whole.length = 1

/-- A numeral is a text that stands for a magnitude, and not for an integer. -/
structure Writes (w : WrittenNumeral) (text : List Char) (m : Binary64.Magnitude) : Prop where
  spelling : w.numeral.spelling = text
  denotes : w.decimal.Denotes m
  real : w.fraction ≠ [] ∨ w.power ≠ none
  zeroAlone : w.ZeroAlone
  singleDigit : w.SingleDigit

end WrittenNumeral

namespace Decimal

open WrittenNumeral

variable {d : Decimal} {m : Binary64.Magnitude}

theorem Denotes.digits_ne_zero (h : d.Denotes m) (hm : m ≠ Binary64.zero) : d.digits ≠ 0 := by
  intro hzero
  rw [Denotes, Binary64.nearestDecimal?, if_pos hzero] at h
  exact hm (Option.some.inj h).symm

theorem isDigit_of_mem_zeros {count : Nat} {c : Char} (h : c ∈ List.replicate count '0') :
    c.isDigit = true := by
  rw [List.eq_of_mem_replicate h]
  rfl

/-- Zeros behind the digits, one of them behind the point. -/
def zerosBehind (d : Decimal) : WrittenNumeral where
  whole := Numeral.decimal d.digits ++ List.replicate d.exponent.toNat '0'
  fraction := ['0']
  power := none
  whole_ne_nil := by simp
  isDigit_of_mem := by
    intro c hc
    simp only [List.mem_append] at hc
    rcases hc with (hdigit | hzero) | hzero
    · exact Numeral.isDigit_of_mem_decimal _ c hdigit
    · exact isDigit_of_mem_zeros hzero
    · have hzero : c ∈ List.replicate 1 '0' := hzero
      exact isDigit_of_mem_zeros hzero

theorem writes_zerosBehind (hm : d.Denotes m) (hd : d.digits ≠ 0) (hexponent : 0 ≤ d.exponent) :
    d.zerosBehind.Writes d.positional m where
  spelling := by
    simp [zerosBehind, numeral, DecimalNumeral.spelling, fractionText, powerText, positional,
      hexponent]
  denotes := by
    have hdigits : d.zerosBehind.decimal.digits = d.digits * 10 ^ (d.exponent.toNat + 1) := by
      have hzeros : ['0'] = List.replicate 1 '0' := rfl
      simp only [decimal, zerosBehind, hzeros, List.append_assoc, List.replicate_append_replicate]
      simp [Numeral.value_append]
    have hpower : d.zerosBehind.decimal.exponent =
        d.exponent - ((d.exponent.toNat + 1 : Nat) : Int) := by
      simp [decimal, zerosBehind, hexponent]
    rw [Denotes, hdigits, hpower, Binary64.nearestDecimal?_zeros]
    exact hm
  real := .inl (List.cons_ne_nil _ _)
  zeroAlone := by
    intro hhead
    rw [zerosBehind, List.head?_append_of_ne_nil _ (Numeral.decimal_ne_nil _)] at hhead
    exact absurd hhead (Numeral.head?_decimal hd)
  singleDigit := fun h => (h rfl).elim

/-- The digits with so many zeros in front that there is one before the point. -/
def padded (d : Decimal) : List Char :=
  padLeft ((-d.exponent).toNat + 1) '0' (Numeral.decimal d.digits)

theorem length_padded (d : Decimal) :
    d.padded.length = max ((-d.exponent).toNat + 1) (Numeral.decimal d.digits).length := by
  rw [padded, padLeft, List.length_append, List.length_replicate]
  omega

/-- Zeros in front of the digits, so that the point has a digit on each side. -/
def zerosInFront (d : Decimal) : WrittenNumeral where
  whole := d.padded.take (d.padded.length - (-d.exponent).toNat)
  fraction := d.padded.drop (d.padded.length - (-d.exponent).toNat)
  power := none
  whole_ne_nil := by
    have hlength := d.length_padded
    rw [← List.length_pos_iff, List.length_take]
    omega
  isDigit_of_mem := by
    intro c hc
    rw [List.take_append_drop] at hc
    rcases List.mem_append.mp hc with hzero | hdigit
    · exact isDigit_of_mem_zeros hzero
    · exact Numeral.isDigit_of_mem_decimal _ c hdigit

theorem length_fraction_zerosInFront (d : Decimal) :
    d.zerosInFront.fraction.length = (-d.exponent).toNat := by
  have hlength := d.length_padded
  rw [zerosInFront, List.length_drop]
  omega

/-- Zeros stand in front of too few digits, which leaves one digit before the point. -/
theorem zeroAlone_zerosInFront (hd : d.digits ≠ 0) : d.zerosInFront.ZeroAlone := by
  intro hhead
  have hlength := d.length_padded
  have hwhole : d.zerosInFront.whole.length = d.padded.length - (-d.exponent).toNat := by
    rw [zerosInFront, List.length_take]
    omega
  by_cases hfew : (Numeral.decimal d.digits).length ≤ (-d.exponent).toNat
  · omega
  · have hnone : (-d.exponent).toNat + 1 - (Numeral.decimal d.digits).length = 0 := by omega
    have hpadded : d.padded = Numeral.decimal d.digits := by
      rw [padded, padLeft, hnone]
      rfl
    have hfirst : d.zerosInFront.whole.head? = (Numeral.decimal d.digits).head? := by
      rw [zerosInFront, List.head?_take, if_neg (by omega), hpadded]
    rw [hfirst] at hhead
    exact absurd hhead (Numeral.head?_decimal hd)

theorem writes_zerosInFront (hm : d.Denotes m) (hd : d.digits ≠ 0) (hexponent : ¬ 0 ≤ d.exponent) :
    d.zerosInFront.Writes d.positional m := by
  have hfraction := d.length_fraction_zerosInFront
  have hne : d.zerosInFront.fraction ≠ [] := by
    rw [← List.length_pos_iff, hfraction]
    omega
  refine ⟨?_, ?_, .inl hne, zeroAlone_zerosInFront hd, fun h => (h rfl).elim⟩
  · have htext : fractionText d.zerosInFront.fraction = '.' :: d.zerosInFront.fraction := by
      simp [fractionText, hne]
    simp only [numeral, DecimalNumeral.spelling, htext, positional, if_neg hexponent]
    exact List.append_nil _
  · have hdigits : d.zerosInFront.decimal.digits = d.digits := by
      simp [decimal, zerosInFront, padded, padLeft, Numeral.value_append]
    have hpower : d.zerosInFront.decimal.exponent = d.exponent := by
      rw [decimal, hfraction]
      show 0 - ((-d.exponent).toNat : Int) = d.exponent
      omega
    rw [Denotes, hdigits, hpower]
    exact hm

/-- A number written with its point between or behind its digits. -/
theorem exists_writes_positional (hm : d.Denotes m) (hd : d.digits ≠ 0) :
    ∃ w : WrittenNumeral, w.Writes d.positional m := by
  by_cases hexponent : 0 ≤ d.exponent
  · exact ⟨d.zerosBehind, writes_zerosBehind hm hd hexponent⟩
  · exact ⟨d.zerosInFront, writes_zerosInFront hm hd hexponent⟩

/-- The first digit in front of the point and the others behind it. -/
def firstAlone (plus : Bool) (d : Decimal) : WrittenNumeral where
  whole := (Numeral.decimal d.digits).take 1
  fraction := (Numeral.decimal d.digits).drop 1
  power := some d.leading
  plus := plus
  whole_ne_nil := by
    have hpos := Numeral.length_decimal_pos d.digits
    rw [← List.length_pos_iff, List.length_take]
    omega
  isDigit_of_mem := by
    intro c hc
    rw [List.take_append_drop] at hc
    exact Numeral.isDigit_of_mem_decimal _ c hc

theorem length_whole_firstAlone (plus : Bool) (d : Decimal) :
    (d.firstAlone plus).whole.length = 1 := by
  have hpos := Numeral.length_decimal_pos d.digits
  rw [firstAlone, List.length_take]
  omega

/-- A number written with its first digit in front of the point and a power of ten. -/
theorem writes_firstAlone (plus : Bool) (hm : d.Denotes m) :
    (d.firstAlone plus).Writes (d.scientific plus) m where
  spelling := by
    simp [firstAlone, numeral, DecimalNumeral.spelling, fractionText, powerText, scientific]
  denotes := by
    have hpos := Numeral.length_decimal_pos d.digits
    have hexponent : (d.firstAlone plus).decimal.exponent = d.exponent := by
      simp only [decimal, firstAlone, leading, Option.getD_some, List.length_drop]
      omega
    have hdigits : (d.firstAlone plus).decimal.digits = d.digits := by
      simp only [decimal, firstAlone, List.take_append_drop, Numeral.value_decimal]
    rw [Denotes, hexponent, hdigits]
    exact hm
  real := .inr (Option.some_ne_none _)
  zeroAlone := fun _ => d.length_whole_firstAlone plus
  singleDigit := fun _ => d.length_whole_firstAlone plus

end Decimal

/-- The text of a magnitude is a numeral that stands for it. -/
theorem Binary64.exists_writes_magnitudeChars (layout : FloatLayout) (m : Magnitude) :
    ∃ w : WrittenNumeral, w.Writes (magnitudeChars layout m) m := by
  unfold magnitudeChars
  split
  · next hzero =>
    subst hzero
    let w : WrittenNumeral :=
      { whole := ['0']
        fraction := ['0']
        power := none
        whole_ne_nil := by simp
        isDigit_of_mem := List.all_eq_true.mp rfl }
    exact ⟨w, rfl, rfl, .inl (by simp [w]), fun _ => rfl, fun h => (h rfl).elim⟩
  · next hm =>
    have hdenotes := denotes_shortest layout.tie hm
    dsimp only
    split
    · exact Decimal.exists_writes_positional hdenotes (hdenotes.digits_ne_zero hm)
    · exact ⟨_, Decimal.writes_firstAlone layout.plus hdenotes⟩

namespace Number

/-- The numbers that a single token can stand for, in the radix of its numeral: integers
without a sign that fit 64 bits, and finite numbers without a sign in base ten. -/
def Readable : Radix → Number → Prop
  | _, integer value => ∃ n : Nat, n < integerBound ∧ value = n
  | .decimal, real value => ∃ m, value = .finite false m
  | .hexadecimal, real _ => False

variable {radix : Radix} {value : Number} {rest : List Char}

/-- The numeral of such a number is a written one in base ten, or one in base sixteen. -/
theorem Readable.cases (h : Readable radix value) :
    (radix = .decimal ∧ ∃ w : WrittenNumeral, value.charsIn radix = w.numeral.spelling ∧
      w.numeral.number? = some value) ∨
    (radix = .hexadecimal ∧ ∃ n < integerBound, value = integer n ∧
      value.charsIn radix = '0' :: 'x' :: Numeral.hexadecimal n) := by
  cases value with
  | integer value =>
    obtain ⟨n, hn, rfl⟩ := h
    cases radix with
    | decimal =>
      refine .inl ⟨rfl, .ofNat n, ?_, WrittenNumeral.number?_ofNat hn⟩
      rw [WrittenNumeral.spelling_ofNat]
      simp [charsIn, chars, Numeral.signed]
    | hexadecimal =>
      refine .inr ⟨rfl, n, hn, rfl, ?_⟩
      simp [charsIn]
  | real value =>
    cases radix with
    | hexadecimal => cases h
    | decimal =>
      obtain ⟨m, rfl⟩ := h
      obtain ⟨w, hw⟩ := Binary64.exists_writes_magnitudeChars sourceLayout m
      exact .inl ⟨rfl, w, hw.spelling.symm, w.number?_of_denotes hw.real hw.denotes⟩

/-- The numeral of such a number is read, whatever follows that is no part of a word. -/
theorem Readable.readNumeral (h : Readable radix value) (hrest : Stops isWordChar rest) :
    readNumeral (value.charsIn radix ++ rest) =
      .ok (.number radix value, (value.charsIn radix).length) := by
  rcases h.cases with ⟨rfl, w, hchars, hnumber⟩ | ⟨rfl, n, hn, rfl, hchars⟩
  · rw [hchars]
    exact w.readNumeral_append hnumber hrest
  · have htake := (hrest.mono isWordChar_of_isHexDigit).takeWhile_append
      (Numeral.isHexDigit_of_mem_hexadecimal n)
    have hbound : ¬ integerBound ≤ n := Nat.not_le.mpr hn
    rw [hchars]
    simp [MipsAssembly.readNumeral, readHexadecimal, htake, hrest.takeWhile_eq_nil, hbound]
    rfl

/-- The opposite number is written with a sign, unless there is none. -/
theorem Readable.charsIn_negate (h : Readable radix value) :
    value.negate = value ∨ value.negate.charsIn radix = '-' :: value.charsIn radix := by
  cases value with
  | integer value =>
    obtain ⟨n, -, rfl⟩ := h
    rcases Nat.eq_zero_or_pos n with rfl | hpos
    · exact .inl rfl
    · have hneg : -(n : Int) < 0 := by omega
      right
      cases radix with
      | decimal => simp [charsIn, chars, negate, Numeral.signed, hpos]
      | hexadecimal => simp [charsIn, negate, hpos]
  | real value =>
    cases radix with
    | hexadecimal => cases h
    | decimal =>
      obtain ⟨m, rfl⟩ := h
      exact .inr rfl

theorem Readable.exists_cons (h : Readable radix value) :
    ∃ c cs, value.charsIn radix = c :: cs ∧ c.isDigit = true := by
  rcases h.cases with ⟨rfl, w, hchars, -⟩ | ⟨rfl, n, -, rfl, hchars⟩
  · obtain ⟨c, cs, hspelling, hdigit⟩ := w.exists_spelling_eq_cons
    exact ⟨c, cs, hchars.trans hspelling, hdigit⟩
  · exact ⟨_, _, hchars, rfl⟩

end Number

end MipsAssembly
