import MipsAssembly.Proofs.Binary64.Rounding
import MipsAssembly.Proofs.Json.Number

/-!
# JSON numbers that break off

Where the text of a number breaks off, either a digit is missing, or what is left is a numeral
again.  This numeral has no more digits and, unless that is below zero, no greater power of ten, so
its number is finite if that of the whole text is.

## Main definitions

- `JsonNumeral.Remains` — the parts of what is left of a numeral.
- `JsonNumeral.Allowed.spelling_of_prefix` — how a numeral breaks off.
- `JsonNumeral.Remains.exists_number` — what is left has a number.
- `Number.InJson.spelling_of_prefix` — how the text of a number breaks off.
-/

namespace MipsAssembly

open WrittenNumeral
open DecimalNumeral (SpellsPower)

/-- The start of a text in two parts ends inside the first part or covers it. -/
theorem prefix_append_cases {α : Type} {pre front behind : List α} (h : pre <+: front ++ behind) :
    (pre <+: front ∧ pre ≠ front) ∨ ∃ more, pre = front ++ more ∧ more <+: behind := by
  have hcovers (hfront : front <+: pre) : ∃ more, pre = front ++ more ∧ more <+: behind := by
    obtain ⟨more, rfl⟩ := hfront
    exact ⟨more, rfl, (List.prefix_append_right_inj front).mp h⟩
  by_cases hwhole : pre = front
  · exact .inr (hcovers (hwhole ▸ List.prefix_rfl))
  · exact (List.prefix_or_prefix_of_prefix h (List.prefix_append front behind)).imp
      (fun hpre => ⟨hpre, hwhole⟩) hcovers

namespace JsonNumeral

variable {whole fraction power whole' fraction' power' pre : List Char} {p p' : ℤ}

/-! ## The value of the digits -/

/-- The exact value of a numeral without its power of ten. -/
def mantissa (whole fraction : List Char) : ℚ :=
  Numeral.value 10 (whole ++ fraction) * 10 ^ (-(fraction.length : ℤ))

theorem mantissa_nonneg (whole fraction : List Char) : 0 ≤ mantissa whole fraction := by
  unfold mantissa
  positivity

theorem mantissa_nil (whole : List Char) : mantissa whole [] = Numeral.value 10 whole := by
  simp [mantissa]

/-- The exact value of a numeral. -/
theorem mantissa_mul (whole fraction : List Char) (p : ℤ) :
    mantissa whole fraction * 10 ^ p =
      Numeral.value 10 (whole ++ fraction) * 10 ^ (p - fraction.length) := by
  rw [mantissa, mul_assoc, ← zpow_add₀ (by norm_num), neg_add_eq_sub]

theorem mantissa_le_append (whole fraction more : List Char) :
    mantissa whole fraction ≤ mantissa whole (fraction ++ more) := by
  have hten : (10 : ℚ) ^ more.length * 10 ^ (-((fraction ++ more).length : ℤ)) =
      10 ^ (-(fraction.length : ℤ)) := by
    rw [← zpow_natCast, ← zpow_add₀ (by norm_num), List.length_append]
    congr 1
    omega
  rw [mantissa, mantissa, ← List.append_assoc, Numeral.value_append 10 (whole ++ fraction), ← hten,
    ← mul_assoc]
  refine mul_le_mul_of_nonneg_right ?_ (by positivity)
  have hmore : (0 : ℚ) ≤ Numeral.value 10 more := Nat.cast_nonneg _
  push_cast
  exact le_add_of_nonneg_right hmore

theorem mantissa_of_prefix (h : whole' <+: whole) (fraction : List Char) :
    mantissa whole' [] ≤ mantissa whole fraction := by
  obtain ⟨more, rfl⟩ := h
  have hdigits : (Numeral.value 10 whole' : ℚ) ≤ Numeral.value 10 (whole' ++ more) :=
    Nat.cast_le.mpr (Numeral.value_le_append whole' more)
  calc mantissa whole' [] ≤ mantissa (whole' ++ more) [] := by rwa [mantissa_nil, mantissa_nil]
    _ ≤ mantissa (whole' ++ more) fraction := mantissa_le_append (whole' ++ more) [] fraction

theorem mantissa_lt (h : ∀ c ∈ whole ++ fraction, c.isDigit = true) :
    mantissa whole fraction < 10 ^ whole.length := by
  have hvalue : (Numeral.value 10 (whole ++ fraction) : ℚ) < 10 ^ (whole ++ fraction).length := by
    exact_mod_cast Numeral.value_lt_pow h
  rw [mantissa, zpow_neg, zpow_natCast, ← div_eq_mul_inv, div_lt_iff₀ (by positivity), ← pow_add,
    ← List.length_append]
  exact hvalue

/-! ## What is left of a numeral -/

/-- The parts of what is left where a numeral breaks off. -/
structure Remains (whole fraction power : List Char) (p : ℤ) (whole' fraction' power' : List Char)
    (p' : ℤ) : Prop where
  allowed : Allowed whole' fraction' power' p'
  isPrefix_whole : whole' <+: whole
  isPrefix_fraction : fraction' <+: fraction
  isPrefix_power : power' <+: power
  mantissa_le : mantissa whole' fraction' ≤ mantissa whole fraction
  exponent_le : p' ≤ max 0 p

/-- A power of ten breaks off where a digit has to come, or leaves a power of ten again. -/
theorem readPower_of_prefix (h : SpellsPower power p) (hpre : pre <+: power) :
    readPower pre = .error .truncated ∨ ∃ p' ≤ max 0 p, SpellsPower pre p' := by
  have hdigits {ds ds' : List Char} (hds : ∀ c ∈ ds, c.isDigit = true) (hpre : ds' <+: ds) :
      (∀ c ∈ ds', c.isDigit = true) ∧ Numeral.value 10 ds' ≤ Numeral.value 10 ds := by
    obtain ⟨more, rfl⟩ := hpre
    exact ⟨fun c hc => hds c (List.mem_append_left _ hc), Numeral.value_le_append ds' more⟩
  have habsent : ∃ p' ≤ max 0 p, SpellsPower [] p' := ⟨0, le_max_left 0 p, .absent⟩
  cases h with
  | absent =>
    rw [List.prefix_nil] at hpre
    exact .inr (hpre ▸ habsent)
  | @unsigned e ds he _ hds =>
    rcases List.prefix_cons_iff.mp hpre with rfl | ⟨ds', rfl, hleft⟩
    · exact .inr habsent
    by_cases hne : ds' = []
    · subst hne
      exact .inl (by simp [readPower, isMark he, digits, missingDigit, Except.map])
    · obtain ⟨hds', hvalue⟩ := hdigits hds hleft
      exact .inr ⟨_, by omega, .unsigned he hne hds'⟩
  | @plus e ds he _ hds | @minus e ds he _ hds =>
    rcases List.prefix_cons_iff.mp hpre with rfl | ⟨behind, rfl, hbehind⟩
    · exact .inr habsent
    rcases List.prefix_cons_iff.mp hbehind with rfl | ⟨ds', rfl, hleft⟩
    · exact .inl (by simp [readPower, isMark he, digits, missingDigit, Except.map])
    by_cases hne : ds' = []
    · subst hne
      exact .inl (by simp [readPower, isMark he, digits, missingDigit, Except.map])
    · obtain ⟨hds', hvalue⟩ := hdigits hds hleft
      first
        | exact .inr ⟨_, by omega, .plus he hne hds'⟩
        | exact .inr ⟨_, by omega, .minus he hne hds'⟩

/-- What is left of a power of ten is no digit at its start, nor a point. -/
theorem stops_of_prefix (h : SpellsPower power p) (hpre : pre <+: power) :
    Stops Char.isDigit pre ∧ pre.head? ≠ some '.' := by
  cases pre with
  | nil => simp
  | cons c cs =>
    obtain ⟨more, rfl⟩ := hpre
    have hstop := h.stops (Stops.nil Char.isDigit)
    have hpoint : (c :: cs ++ more ++ []).head? ≠ some '.' := h.head?_ne_point (by simp)
    exact ⟨hstop, hpoint⟩

namespace Allowed

variable (h : Allowed whole fraction power p)

include h

/-- A fault behind the digits in front is the fault of the numeral. -/
theorem spelling_of_readFraction {behind : List Char} {f : JsonFault} (negative : Bool)
    (hstop : Stops Char.isDigit behind) (hread : readFraction behind = .error f) :
    spelling (signText negative ++ (whole ++ behind)) = .error f := by
  rw [spelling_signText negative (head?_ne_minus h.whole_ne_nil h.isDigit_of_mem_whole _),
    h.readWhole_append hstop]
  simp only [bind, Except.bind, List.drop_left, hread]

/-- A fault behind the fraction is the fault of the numeral. -/
theorem spelling_of_readPower {behind : List Char} {f : JsonFault} (negative : Bool)
    (hstop : Stops Char.isDigit behind) (hpoint : behind.head? ≠ some '.')
    (hread : readPower behind = .error f) :
    spelling (signText negative ++ (whole ++ (fractionText fraction ++ behind))) = .error f := by
  rw [spelling_signText negative (head?_ne_minus h.whole_ne_nil h.isDigit_of_mem_whole _),
    h.readWhole_append (stops_fractionText fraction hstop)]
  simp only [bind, Except.bind, List.drop_left,
    readFraction_fractionText h.isDigit_of_mem_fraction hstop hpoint, hread]

/-- Some of the digits in front are left. -/
theorem remains_whole (hpre : whole' <+: whole) (hne : whole' ≠ []) :
    Remains whole fraction power p whole' [] [] 0 where
  allowed :=
    { whole_ne_nil := hne
      isDigit_of_mem := by
        rw [List.append_nil]
        exact fun c hc => h.isDigit_of_mem_whole c (hpre.subset hc)
      zeroAlone := by
        intro hzero
        have hlength := hpre.length_le
        have hpos := List.length_pos_iff.mpr hne
        obtain ⟨more, rfl⟩ := hpre
        rw [← List.head?_append_of_ne_nil _ hne] at hzero
        have hone := h.zeroAlone hzero
        omega
      power := .absent }
  isPrefix_whole := hpre
  isPrefix_fraction := List.nil_prefix
  isPrefix_power := List.nil_prefix
  mantissa_le := mantissa_of_prefix hpre fraction
  exponent_le := le_max_left 0 p

/-- The digits in front and some of the fraction are left, or nothing is missing but at the power
of ten. -/
theorem remains_fraction (hpre : fraction' <+: fraction) (hpower : power' <+: power)
    (hspells : SpellsPower power' p') (hp : p' ≤ max 0 p) :
    Remains whole fraction power p whole fraction' power' p' where
  allowed :=
    { whole_ne_nil := h.whole_ne_nil
      isDigit_of_mem := List.forall_mem_append.mpr ⟨h.isDigit_of_mem_whole,
        fun c hc => h.isDigit_of_mem_fraction c (hpre.subset hc)⟩
      zeroAlone := h.zeroAlone
      power := hspells }
  isPrefix_whole := List.prefix_rfl
  isPrefix_fraction := hpre
  isPrefix_power := hpower
  mantissa_le := by
    obtain ⟨more, rfl⟩ := hpre
    exact mantissa_le_append whole fraction' more
  exponent_le := hp

/-- Where a numeral breaks off, a digit is missing or a numeral is left. -/
theorem spelling_of_prefix (negative : Bool) (hne : pre ≠ [])
    (hpre : pre <+: signText negative ++ (whole ++ (fractionText fraction ++ power))) :
    spelling pre = .error .truncated ∨ ∃ whole' fraction' power' p',
      Remains whole fraction power p whole' fraction' power' p' ∧
        pre = signText negative ++ (whole' ++ (fractionText fraction' ++ power')) := by
  rcases prefix_append_cases hpre with ⟨hsign, -⟩ | ⟨behind, rfl, hdigits⟩
  -- Nothing is left but the sign.
  · cases negative with
    | false => exact absurd (List.prefix_nil.mp hsign) hne
    | true =>
      obtain rfl : pre = ['-'] := by
        rcases List.prefix_cons_iff.mp hsign with rfl | ⟨_, rfl, hnil⟩
        · exact absurd rfl hne
        · rw [List.prefix_nil.mp hnil]
      exact .inl rfl
  rcases prefix_append_cases hdigits with ⟨hwhole, -⟩ | ⟨behind, rfl, hbehind⟩
  · by_cases hnil : behind = []
    · subst hnil
      cases negative with
      | false => exact absurd rfl hne
      | true => exact .inl rfl
    · exact .inr ⟨_, _, _, _, h.remains_whole hwhole hnil, by simp [fractionText]⟩
  have hall : ∃ whole' fraction' power' p',
      Remains whole fraction power p whole' fraction' power' p' ∧
      signText negative ++ whole =
        signText negative ++ (whole' ++ (fractionText fraction' ++ power')) :=
    ⟨_, _, _, _, h.remains_whole List.prefix_rfl h.whole_ne_nil, by simp [fractionText]⟩
  rcases prefix_append_cases hbehind with ⟨hfraction, -⟩ | ⟨power', rfl, hpower⟩
  · cases behind with
    | nil => exact .inr (by simpa using hall)
    | cons c fraction' =>
      obtain ⟨rfl, hfraction, hmore⟩ : c = '.' ∧ fraction' <+: fraction ∧ fraction ≠ [] := by
        unfold fractionText at hfraction
        split at hfraction
        · simp at hfraction
        · next hne =>
          rw [List.cons_prefix_cons] at hfraction
          exact ⟨hfraction.1, hfraction.2, by simpa using hne⟩
      by_cases hnil : fraction' = []
      · subst hnil
        exact .inl (h.spelling_of_readFraction negative (by simp) rfl)
      · refine .inr ⟨_, _, _, _, h.remains_fraction hfraction List.nil_prefix .absent
          (le_max_left 0 p), ?_⟩
        simp [fractionText, hnil]
  · rcases readPower_of_prefix h.power hpower with hread | ⟨p', hp', hspells⟩
    · obtain ⟨hstop, hpoint⟩ := stops_of_prefix h.power hpower
      exact .inl (h.spelling_of_readPower negative hstop hpoint hread)
    · exact .inr ⟨_, _, _, _, h.remains_fraction List.prefix_rfl hpower hspells hp', rfl⟩

end Allowed

/-! ## The number of what is left -/

/-- The numbers from here on are out of range. -/
def limit : ℚ :=
  2 ^ 1024 - 2 ^ 970

theorem two_mul_integerBound_lt_limit : ((2 * integerBound : ℕ) : ℚ) < limit := by
  have hbound : 2 * integerBound = 2 ^ 64 := rfl
  have hbig : (2 ^ 64 + 2 ^ 970 : ℕ) < 2 ^ 1024 := by decide +kernel
  have hcast : ((2 ^ 64 : ℕ) : ℚ) + ((2 ^ 970 : ℕ) : ℚ) < ((2 ^ 1024 : ℕ) : ℚ) := by
    exact_mod_cast hbig
  rw [hbound, limit]
  rw [Nat.cast_pow 2 970, Nat.cast_pow 2 1024] at hcast
  exact lt_sub_iff_add_lt.mpr hcast

/-- A number is made of a floating-point number that is in range. -/
theorem finite_ofDecimal {negative : Bool} {digits : ℕ} {exponent : ℤ} {result : Number} :
    finite (.ofDecimal negative digits exponent) = .ok result ↔
      (digits * 10 ^ exponent : ℚ) < limit ∧
        result = .real (.ofDecimal negative digits exponent) := by
  rw [limit, ← Binary64.isFinite_ofDecimal_iff negative, finite]
  split
  · next h => simp [h, eq_comm]
  · next h => simp [h]

/-- The exact value of a numeral that has a number is in range. -/
theorem Allowed.lt_limit (h : Allowed whole fraction power p) {negative : Bool} {n : Number}
    (hnumber : number ⟨negative, whole, fractionText fraction, power⟩ = .ok n) :
    mantissa whole fraction * 10 ^ p < limit := by
  by_cases hparts : fraction ≠ [] ∨ power ≠ []
  · rw [h.number_of_real negative hparts, finite_ofDecimal] at hnumber
    rw [mantissa_mul]
    exact hnumber.1
  · simp only [not_or, not_not] at hparts
    obtain ⟨rfl, rfl⟩ := hparts
    cases h.power
    rw [zpow_zero, mul_one, mantissa_nil]
    by_cases hfits : Fits negative (Numeral.value 10 whole)
    · have hvalue : Numeral.value 10 whole < 2 * integerBound := by
        unfold Fits at hfits
        split at hfits <;> omega
      exact lt_trans (Nat.cast_lt.mpr hvalue) two_mul_integerBound_lt_limit
    · have hfinite := (number_of_not_fits hfits).symm.trans hnumber
      simpa using (finite_ofDecimal.mp hfinite).1

/-- What is left of a numeral has a number if the digits and the exact value are in range. -/
theorem Remains.exists_number (h : Remains whole fraction power p whole' fraction' power' p')
    (hdigits : mantissa whole fraction < limit) (hvalue : mantissa whole fraction * 10 ^ p < limit)
    (negative : Bool) :
    ∃ m, number ⟨negative, whole', fractionText fraction', power'⟩ = .ok m := by
  have hrange : mantissa whole' fraction' * 10 ^ p' < limit := by
    have hpower : (10 : ℚ) ^ p' ≤ 10 ^ max 0 p := zpow_le_zpow_right₀ (by norm_num) h.exponent_le
    have hproduct : mantissa whole' fraction' * 10 ^ p' ≤ mantissa whole fraction * 10 ^ max 0 p :=
      mul_le_mul h.mantissa_le hpower (by positivity) (mantissa_nonneg whole fraction)
    rcases le_total 0 p with hp | hp
    · rw [max_eq_right hp] at hproduct
      exact lt_of_le_of_lt hproduct hvalue
    · rw [max_eq_left hp, zpow_zero, mul_one] at hproduct
      exact lt_of_le_of_lt hproduct hdigits
  by_cases hparts : fraction' ≠ [] ∨ power' ≠ []
  · rw [mantissa_mul] at hrange
    rw [h.allowed.number_of_real negative hparts]
    exact ⟨_, finite_ofDecimal.mpr ⟨hrange, rfl⟩⟩
  · simp only [not_or, not_not] at hparts
    obtain ⟨rfl, rfl⟩ := hparts
    cases h.allowed.power
    rw [zpow_zero, mul_one, mantissa_nil] at hrange
    by_cases hfits : Fits negative (Numeral.value 10 whole')
    · exact ⟨_, number_of_fits hfits⟩
    · have hfinite : finite (.ofDecimal negative (Numeral.value 10 whole') 0) = .ok _ :=
        finite_ofDecimal.mpr ⟨by simpa using hrange, rfl⟩
      exact ⟨_, (number_of_not_fits hfits).trans hfinite⟩

/-- Only digits stand for an integer. -/
theorem Allowed.of_number_eq_natural (h : Allowed whole fraction power p) {negative : Bool} {i : ℕ}
    (hnumber : number ⟨negative, whole, fractionText fraction, power⟩ = .ok (.integer i)) :
    fraction = [] ∧ power = [] ∧ negative = false ∧ Numeral.value 10 whole = i ∧
      i < 2 * integerBound := by
  by_cases hparts : fraction ≠ [] ∨ power ≠ []
  · rw [h.number_of_real negative hparts, finite_ofDecimal] at hnumber
    cases hnumber.2
  · simp only [not_or, not_not] at hparts
    obtain ⟨rfl, rfl⟩ := hparts
    by_cases hfits : Fits negative (Numeral.value 10 whole)
    · have heq := (number_of_fits hfits).symm.trans hnumber
      rw [Except.ok.injEq, Number.integer.injEq] at heq
      unfold Fits at hfits
      cases negative with
      | false =>
        simp only [Bool.false_eq_true, if_false] at hfits heq
        exact ⟨rfl, rfl, rfl, by omega, by omega⟩
      | true =>
        simp only [if_true] at hfits heq
        omega
    · cases (finite_ofDecimal.mp ((number_of_not_fits hfits).symm.trans hnumber)).2

end JsonNumeral

namespace Number

open JsonNumeral

/-- A number may stand where another one breaks off: if the whole one is a natural number, it is no
greater. -/
def Begins (m n : Number) : Prop :=
  ∀ i : ℕ, n = .integer i → ∃ j : ℕ, j ≤ i ∧ m = .integer j

/-- Where the text of a number breaks off, a digit is missing or a number is left. -/
theorem InJson.spelling_of_prefix {n : Number} (h : n.InJson) {pre : List Char} (hne : pre ≠ [])
    (hpre : pre <+: JsonValue.writeNumber n) :
    spelling pre = .error .truncated ∨ ∃ numeral m, spelling pre = .ok numeral ∧
      numeral.length = pre.length ∧ numeral.number = .ok m ∧ m.Begins n := by
  obtain ⟨negative, w, hzero, hsingle, htext, hnumber⟩ := h.exists_written
  have hallowed := allowed_of_zeroAlone hzero
  have hnumber : number ⟨negative, w.whole, fractionText w.fraction, powerText w.plus w.power⟩ =
      .ok n := hnumber
  have hvalue := hallowed.lt_limit hnumber
  have hdigits : mantissa w.whole w.fraction < limit := by
    cases hpower : w.power with
    | none => simpa [hpower] using hvalue
    | some q =>
      have hone : w.whole.length = 1 := hsingle (by simp [hpower])
      have hten := mantissa_lt w.isDigit_of_mem
      rw [hone, pow_one] at hten
      have hlimit : (10 : ℚ) < (2 * integerBound : ℕ) := by
        have hbound : 10 < 2 * integerBound := by decide
        exact_mod_cast hbound
      exact hten.trans (hlimit.trans two_mul_integerBound_lt_limit)
  have hspelling : w.numeral.spelling =
      w.whole ++ (fractionText w.fraction ++ powerText w.plus w.power) := by
    simp [DecimalNumeral.spelling, numeral]
  rw [htext, hspelling] at hpre
  rcases hallowed.spelling_of_prefix negative hne hpre with
    hread | ⟨whole', fraction', power', p', hremains, rfl⟩
  · exact .inl hread
  obtain ⟨m, hm⟩ := hremains.exists_number hdigits hvalue negative
  have hread := hremains.allowed.spelling_append negative (Stops.nil isNumeralChar)
  have hlength := length_eq negative ⟨whole', fractionText fraction', power'⟩
  rw [List.append_nil] at hread
  rw [DecimalNumeral.spelling, List.append_assoc] at hlength
  refine .inr ⟨_, m, hread, hlength, hm, ?_⟩
  -- If the whole number is natural, what is left are some of its digits.
  rintro i rfl
  obtain ⟨hfraction, hpower, rfl, rfl, hi⟩ := hallowed.of_number_eq_natural hnumber
  have hfraction' := hremains.isPrefix_fraction
  have hpower' := hremains.isPrefix_power
  rw [hfraction, List.prefix_nil] at hfraction'
  rw [hpower, List.prefix_nil] at hpower'
  subst hfraction' hpower'
  obtain ⟨more, hwhole⟩ := hremains.isPrefix_whole
  have hle : Numeral.value 10 whole' ≤ Numeral.value 10 w.whole := by
    rw [← hwhole]
    exact Numeral.value_le_append whole' more
  have hfits : Fits false (Numeral.value 10 whole') := lt_of_le_of_lt hle hi
  exact ⟨_, hle, Except.ok.inj (hm.symm.trans (number_of_fits hfits))⟩

end Number

end MipsAssembly
