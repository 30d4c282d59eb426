import MipsAssembly.Json.Token
import MipsAssembly.Json.Writer
import MipsAssembly.Proofs.Number

/-!
# Written JSON numbers read back

The numbers of a JSON text are written as numerals with a minus sign in front or without one.
Such a numeral is cut off part by part, whatever follows that could not continue it.  It stands
for an integer if it has only digits, and otherwise for the floating-point number nearest to its
decimal value.

## Main definitions

- `JsonNumeral.Allowed` — the parts of a numeral as JSON allows them.
- `JsonNumeral.Allowed.spelling_append` — such a numeral is cut off.
- `JsonNumeral.ofWritten` — a written numeral as part of a JSON text.
- `Number.InJson` — the numbers that JSON texts can tell.
- `Number.InJson.exists_written` — their texts are numerals for them.
-/

namespace MipsAssembly

open WrittenNumeral
open DecimalNumeral (SpellsPower)

namespace JsonNumeral

/-- The characters behind which a numeral would go on. -/
def isNumeralChar (c : Char) : Bool :=
  c.isDigit || c = '.' || c = 'e' || c = 'E'

theorem isNumeralChar_of_isDigit (c : Char) (h : c.isDigit = true) : isNumeralChar c = true := by
  simp [isNumeralChar, h]

def signText (negative : Bool) : List Char :=
  if negative then ['-'] else []

/-- The parts of a numeral as JSON allows them: digits of which a zero stands in front only if it
stands alone, digits behind a point if there are any, and a power of ten or nothing. -/
structure Allowed (whole fraction power : List Char) (p : Int) : Prop where
  whole_ne_nil : whole ≠ []
  isDigit_of_mem : ∀ c ∈ whole ++ fraction, c.isDigit = true
  zeroAlone : whole.head? = some '0' → whole.length = 1
  power : SpellsPower power p

/-- The parts of a written numeral, with a minus sign in front or without one. -/
def ofWritten (negative : Bool) (w : WrittenNumeral) : JsonNumeral :=
  ⟨negative, w.whole, w.numeral.fraction, w.numeral.power⟩

theorem allowed_of_zeroAlone {w : WrittenNumeral} (h : w.ZeroAlone) :
    Allowed w.whole w.fraction (powerText w.plus w.power) (w.power.getD 0) :=
  ⟨w.whole_ne_nil, w.isDigit_of_mem, h, spellsPower_powerText w.plus w.power⟩

variable {whole fraction power rest : List Char} {p : Int}

/-- A numeral with a sign is as long as its text. -/
theorem length_eq (negative : Bool) (n : DecimalNumeral) :
    length ⟨negative, n.whole, n.fraction, n.power⟩ = (signText negative ++ n.spelling).length := by
  cases negative <;> simp [length, signText, DecimalNumeral.spelling] <;> omega

/-! ## Cutting off the parts -/

theorem digits_append {cs : List Char} (hcs : ∀ c ∈ cs, c.isDigit = true) (hne : cs ≠ [])
    (hrest : Stops Char.isDigit rest) : digits (cs ++ rest) = .ok cs := by
  rw [digits, hrest.takeWhile_append hcs]
  simp [hne]

namespace Allowed

variable (h : Allowed whole fraction power p)

include h

theorem isDigit_of_mem_whole : ∀ c ∈ whole, c.isDigit = true :=
  fun c hc => h.isDigit_of_mem c (List.mem_append_left _ hc)

theorem isDigit_of_mem_fraction : ∀ c ∈ fraction, c.isDigit = true :=
  fun c hc => h.isDigit_of_mem c (List.mem_append_right _ hc)

theorem readWhole_append (hrest : Stops Char.isDigit rest) :
    readWhole (whole ++ rest) = .ok whole := by
  have hlong : ¬ (whole.head? = some '0' ∧ whole.length ≠ 1) := fun hzero =>
    hzero.2 (h.zeroAlone hzero.1)
  rw [readWhole, digits_append h.isDigit_of_mem_whole h.whole_ne_nil hrest]
  simp only [if_neg hlong]

end Allowed

theorem readFraction_fractionText (hfraction : ∀ c ∈ fraction, c.isDigit = true)
    (hdigit : Stops Char.isDigit rest) (hpoint : rest.head? ≠ some '.') :
    readFraction (fractionText fraction ++ rest) = .ok (fractionText fraction) := by
  cases fraction with
  | nil =>
    rw [fractionText, List.isEmpty_nil, if_pos rfl, List.nil_append]
    unfold readFraction
    split
    · simp at hpoint
    · rfl
  | cons c fraction =>
    rw [fractionText, List.isEmpty_cons, if_neg (by decide), List.cons_append, readFraction,
      digits_append hfraction (List.cons_ne_nil c fraction) hdigit]
    rfl

theorem isMark {e : Char} (he : e = 'e' ∨ e = 'E') :
    (decide (e = 'e') || decide (e = 'E')) = true := by
  simpa using he

/-- A digit is not taken for a sign. -/
theorem readPower_of_isDigit {e c : Char} (he : e = 'e' ∨ e = 'E') (hc : c.isDigit = true)
    (cs : List Char) : readPower (e :: c :: cs) = (digits (c :: cs)).map (e :: ·) := by
  have hplus : c ≠ '+' := by
    rintro rfl
    cases hc
  have hminus : c ≠ '-' := by
    rintro rfl
    cases hc
  simp [readPower, isMark he, hplus, hminus]

theorem readPower_append (hpower : SpellsPower power p) (hrest : Stops isNumeralChar rest) :
    readPower (power ++ rest) = .ok power := by
  have hstop := hrest.mono isNumeralChar_of_isDigit
  cases hpower with
  | absent =>
    cases rest with
    | nil => rfl
    | cons c rest =>
      have hc := Stops.cons_iff.mp hrest
      simp only [isNumeralChar, Bool.or_eq_false_iff, decide_eq_false_iff_not] at hc
      simp [readPower, hc]
  | @unsigned e ds he hne hdigits =>
    have hread := digits_append hdigits hne hstop
    obtain ⟨c, cs, rfl⟩ := List.exists_cons_of_ne_nil hne
    have hc : c.isDigit = true := hdigits c List.mem_cons_self
    rw [List.cons_append] at hread
    rw [List.cons_append, List.cons_append, readPower_of_isDigit he hc, hread]
    rfl
  | plus he hne hdigits | minus he hne hdigits =>
    simp [readPower, isMark he, digits_append hdigits hne hstop, Except.map]

/-- The digits in front do not start with a sign of their own. -/
theorem head?_ne_minus (hne : whole ≠ []) (hwhole : ∀ c ∈ whole, c.isDigit = true)
    (behind : List Char) : (whole ++ behind).head? ≠ some '-' := by
  obtain ⟨c, cs, rfl⟩ := List.exists_cons_of_ne_nil hne
  have hc := hwhole c List.mem_cons_self
  intro hhead
  cases hhead
  cases hc

/-- A minus sign is cut off first, if there is one. -/
theorem spelling_signText (negative : Bool) {cs : List Char} (hcs : cs.head? ≠ some '-') :
    spelling (signText negative ++ cs) = do
      let whole ← readWhole cs
      let fraction ← readFraction (cs.drop whole.length)
      let power ← readPower ((cs.drop whole.length).drop fraction.length)
      return ⟨negative, whole, fraction, power⟩ := by
  cases negative with
  | true => rfl
  | false =>
    have hhead : decide (cs.head? = some '-') = false := decide_eq_false hcs
    simp only [signText, Bool.false_eq_true, if_false, List.nil_append, spelling, hhead]

/-- A numeral is cut off, whatever follows that would not continue it. -/
theorem Allowed.spelling_append (h : Allowed whole fraction power p) (negative : Bool)
    (hrest : Stops isNumeralChar rest) :
    spelling (signText negative ++ (whole ++ (fractionText fraction ++ (power ++ rest)))) =
      .ok ⟨negative, whole, fractionText fraction, power⟩ := by
  have hpower := h.power.stops (hrest.mono isNumeralChar_of_isDigit)
  have hpoint : (power ++ rest).head? ≠ some '.' := by
    apply h.power.head?_ne_point
    intro hhead
    have hgoes := hrest '.' hhead
    cases hgoes
  have hwhole := h.readWhole_append (stops_fractionText fraction hpower)
  have hfraction := readFraction_fractionText h.isDigit_of_mem_fraction hpower hpoint
  rw [spelling_signText negative (head?_ne_minus h.whole_ne_nil h.isDigit_of_mem_whole _), hwhole]
  simp only [bind, Except.bind, List.drop_left, hfraction, readPower_append h.power hrest]
  rfl

/-- A written numeral is cut off, whatever follows that would not continue it. -/
theorem spelling_append (negative : Bool) {w : WrittenNumeral} (hzero : w.ZeroAlone)
    (hrest : Stops isNumeralChar rest) :
    spelling (signText negative ++ (w.numeral.spelling ++ rest)) = .ok (ofWritten negative w) := by
  have htext : w.numeral.spelling ++ rest =
      w.whole ++ (fractionText w.fraction ++ (powerText w.plus w.power ++ rest)) := by
    simp [DecimalNumeral.spelling, numeral]
  rw [htext]
  exact (allowed_of_zeroAlone hzero).spelling_append negative hrest

/-! ## The numbers of numerals -/

/-- A numeral with a point or a power of ten stands for what its exact value is rounded to. -/
theorem Allowed.number_of_real (h : Allowed whole fraction power p) (negative : Bool)
    (hreal : fraction ≠ [] ∨ power ≠ []) :
    number ⟨negative, whole, fractionText fraction, power⟩ =
      finite (.ofDecimal negative (Numeral.value 10 (whole ++ fraction))
        (p - fraction.length)) := by
  have hparts : ((fractionText fraction).isEmpty && power.isEmpty) = false := by
    rcases hreal with hfraction | hpower
    · simp [fractionText, hfraction]
    · simp [hpower]
  have hread := DecimalNumeral.readDecimal?_spelling h.whole_ne_nil h.isDigit_of_mem_whole
    h.isDigit_of_mem_fraction h.power negative
  rw [DecimalNumeral.spelling] at hread
  simp only [number, hparts, hread, Bool.false_eq_true, if_false]

/-- Digits on their own are in the range of integers. -/
def Fits (negative : Bool) (n : Nat) : Prop :=
  if negative then n ≠ 0 ∧ n ≤ integerBound else n < 2 * integerBound

/-- Digits on their own stand for an integer that is in range. -/
theorem number_of_fits {negative : Bool} (h : Fits negative (Numeral.value 10 whole)) :
    number ⟨negative, whole, [], []⟩ =
      .ok (.integer (if negative then -Numeral.value 10 whole else Numeral.value 10 whole)) :=
  if_pos h

/-- Digits on their own that are out of range stand for a floating-point number. -/
theorem number_of_not_fits {negative : Bool} (h : ¬ Fits negative (Numeral.value 10 whole)) :
    number ⟨negative, whole, [], []⟩ =
      finite (.ofDecimal negative (Numeral.value 10 whole) 0) :=
  if_neg h

/-- A numeral with a point or a power of ten stands for the magnitude of its digits. -/
theorem number_ofWritten_of_denotes (negative : Bool) {w : WrittenNumeral} (hzero : w.ZeroAlone)
    (hreal : w.fraction ≠ [] ∨ w.power ≠ none) {m : Binary64.Magnitude}
    (hm : w.decimal.Denotes m) :
    (ofWritten negative w).number = .ok (.real (.finite negative m)) := by
  have hparts : w.fraction ≠ [] ∨ powerText w.plus w.power ≠ [] := by
    refine hreal.imp_right fun hpower => ?_
    obtain ⟨q, hq⟩ := Option.ne_none_iff_exists'.mp hpower
    simp [powerText, hq]
  have hvalue : Binary64.ofDecimal negative w.decimal.digits w.decimal.exponent =
      .finite negative m := by
    unfold Binary64.ofDecimal
    rw [hm]
  refine ((allowed_of_zeroAlone hzero).number_of_real negative hparts).trans ?_
  exact congrArg finite hvalue

/-- The digits of a number that is in range stand for it. -/
theorem number_ofWritten_ofNat (negative : Bool) {n : Nat} (h : Fits negative n) :
    (ofWritten negative (.ofNat n)).number = .ok (.integer (if negative then -n else n)) := by
  rw [← Numeral.value_decimal n] at h
  refine (number_of_fits h).trans ?_
  rw [Numeral.value_decimal]

end JsonNumeral

theorem WrittenNumeral.zeroAlone_ofNat (n : Nat) : (WrittenNumeral.ofNat n).ZeroAlone := by
  intro hhead
  by_cases hn : n = 0
  · subst hn
    rfl
  · exact absurd hhead (Numeral.head?_decimal hn)

namespace Number

/-- The numbers that JSON texts can tell: integers that fit 64 bits with or without a sign, and
floating-point numbers that are finite. -/
def InJson : Number → Prop
  | integer value => -(integerBound : Int) ≤ value ∧ value < 2 * integerBound
  | real value => value.isFinite = true

/-- Such a number is written as a numeral that stands for it.  A single digit stands in front of
the point if there is a power of ten. -/
theorem InJson.exists_written {number : Number} (h : number.InJson) :
    ∃ negative, ∃ w : WrittenNumeral, w.ZeroAlone ∧ w.SingleDigit ∧
      JsonValue.writeNumber number = JsonNumeral.signText negative ++ w.numeral.spelling ∧
      (JsonNumeral.ofWritten negative w).number = .ok number := by
  cases number with
  | integer value =>
    obtain ⟨hlow, hhigh⟩ := h
    by_cases hneg : value < 0
    · refine ⟨true, .ofNat value.natAbs, zeroAlone_ofNat _, fun h => (h rfl).elim, ?_, ?_⟩
      · rw [JsonValue.writeNumber, Numeral.signed, if_pos hneg, spelling_ofNat]
        rfl
      · have hfits : value.natAbs ≠ 0 ∧ value.natAbs ≤ integerBound := by omega
        have hvalue : -(value.natAbs : Int) = value := by omega
        refine (JsonNumeral.number_ofWritten_ofNat true hfits).trans ?_
        exact congrArg (fun i => Except.ok (integer i)) hvalue
    · refine ⟨false, .ofNat value.natAbs, zeroAlone_ofNat _, fun h => (h rfl).elim, ?_, ?_⟩
      · rw [JsonValue.writeNumber, Numeral.signed, if_neg hneg, spelling_ofNat]
        rfl
      · have hfits : value.natAbs < 2 * integerBound := by omega
        have hvalue : (value.natAbs : Int) = value := by omega
        refine (JsonNumeral.number_ofWritten_ofNat false hfits).trans ?_
        exact congrArg (fun i => Except.ok (integer i)) hvalue
  | real value =>
    cases value with
    | nan => cases h
    | infinite negative => cases h
    | finite negative m =>
      obtain ⟨w, hw⟩ := Binary64.exists_writes_magnitudeChars JsonValue.numberLayout m
      refine ⟨negative, w, hw.zeroAlone, hw.singleDigit, ?_,
        JsonNumeral.number_ofWritten_of_denotes negative hw.zeroAlone hw.real hw.denotes⟩
      have hfinite : (Binary64.finite negative m).isFinite = true := rfl
      rw [hw.spelling, JsonValue.writeNumber, if_pos hfinite]
      cases negative <;> rfl

end Number

end MipsAssembly
