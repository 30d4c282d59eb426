import MipsAssembly.Binary64
import MipsAssembly.Proofs.Numeral

/-!
# The nearest magnitude

Rounding depends on the value of a quotient and not on its terms, so a decimal numeral stands
for the same number with zeros behind its digits and a smaller power of ten.  A magnitude is
nearest to itself, and so its exact decimal value stands for it.

## Main definitions

- `Binary64.nearest?_mul_right` — common factors do not matter.
- `Binary64.nearestDecimal?_zeros` — zeros may move from the digits into the exponent.
- `Binary64.nearest?_units` — a magnitude is nearest to itself.
-/

namespace MipsAssembly

namespace Binary64

theorem unitsInOne_pos : 0 < unitsInOne := by
  decide +kernel

theorem roundQuotient_mul_right (n d : Nat) {factor : Nat} (h : 0 < factor) :
    roundQuotient (n * factor) (d * factor) = roundQuotient n d := by
  have htwice : 2 * (n % d * factor) = 2 * (n % d) * factor := by rw [Nat.mul_assoc]
  simp only [roundQuotient, Nat.mul_div_mul_right n d h, Nat.mul_mod_mul_right, htwice,
    Nat.mul_lt_mul_right h]

/-- A quotient without a remainder is not changed by rounding. -/
theorem roundQuotient_mul_self (n : Nat) {d : Nat} (h : 0 < d) : roundQuotient (n * d) d = n := by
  simp [roundQuotient, Nat.mul_div_cancel n h, h]

/-- Common factors of the terms of a quotient do not matter. -/
theorem nearest?_mul_right (n d : Nat) {factor : Nat} (h : 0 < factor) :
    nearest? (n * factor) (d * factor) = nearest? n d := by
  have hscaled : n * factor * unitsInOne = n * unitsInOne * factor := Nat.mul_right_comm _ _ _
  have hplace : nearestPlace (n * factor) (d * factor) = nearestPlace n d := by
    simp only [nearestPlace, hscaled, Nat.mul_div_mul_right _ d h]
    rw [Nat.mul_right_comm d factor, roundQuotient_mul_right _ _ h]
  simp only [nearest?, hplace]

theorem nearestDecimal?_ten_mul (digits : Nat) (exponent : Int) :
    nearestDecimal? (10 * digits) (exponent - 1) = nearestDecimal? digits exponent := by
  rcases Nat.eq_zero_or_pos digits with rfl | hpos
  · simp [nearestDecimal?]
  -- The numeral keeps its width, and the quotient its value.
  have hwidth : ((Numeral.decimal (10 * digits)).length : Int) + (exponent - 1) =
      (Numeral.decimal digits).length + exponent := by
    rw [Numeral.length_decimal_ten_mul hpos]
    omega
  have hne : 10 * digits ≠ 0 := by omega
  simp only [nearestDecimal?, hwidth, if_neg hne, if_neg (Nat.ne_of_gt hpos)]
  congr 2
  rcases Int.lt_trichotomy exponent 0 with hneg | rfl | hpow
  · obtain ⟨places, rfl⟩ := Int.eq_negSucc_of_lt_zero hneg
    have hpred : (-(Int.negSucc places - 1)).toNat = places + 2 := by omega
    have hplaces : (-Int.negSucc places).toNat = places + 1 := by omega
    rw [if_neg (by omega), if_neg (by omega), hpred, hplaces, Nat.mul_comm 10]
    exact nearest?_mul_right digits (10 ^ (places + 1)) (by decide)
  · have hratio := nearest?_mul_right digits 1 (by decide : 0 < 10)
    rw [Nat.mul_comm digits] at hratio
    simpa using hratio
  · obtain ⟨power, rfl⟩ : ∃ power : Nat, exponent = power + 1 := ⟨(exponent - 1).toNat, by omega⟩
    have hpred : ((power : Int) + 1 - 1).toNat = power := by omega
    have hpower : ((power : Int) + 1).toNat = power + 1 := by omega
    have hdigits : 10 * digits * Nat.pow 10 power = digits * Nat.pow 10 (power + 1) := by
      show 10 * digits * 10 ^ power = digits * 10 ^ (power + 1)
      rw [pow_succ]
      ring
    rw [if_pos (by omega), if_pos (by omega), hpred, hpower, hdigits]

/-- Zeros behind the digits are worth as much in the exponent. -/
theorem nearestDecimal?_zeros (digits zeros : Nat) (exponent : Int) :
    nearestDecimal? (digits * 10 ^ zeros) (exponent - zeros) = nearestDecimal? digits exponent := by
  induction zeros with
  | zero => simp
  | succ zeros ih =>
    have hdigits : digits * 10 ^ (zeros + 1) = 10 * (digits * 10 ^ zeros) := by
      rw [pow_succ]
      ring
    have hexponent : exponent - ((zeros + 1 : Nat) : Int) = exponent - zeros - 1 := by omega
    rw [hdigits, hexponent, nearestDecimal?_ten_mul, ih]

/-- The doublings of a magnitude and its distance from the last of them, which is less than
two binades and not less than one where there is a doubling. -/
theorem exists_units_eq (m : Magnitude) :
    ∃ doublings steps, m.val = doublings * binade + steps ∧
      units m = steps * 2 ^ doublings ∧ steps < 2 * binade ∧ doublings ≤ 2045 ∧
      (doublings = 0 ∨ binade ≤ steps) := by
  have hbinade : 0 < binade := by decide
  have hsplit := Nat.div_add_mod m.val binade
  have hmod := Nat.mod_lt m.val hbinade
  rcases hq : m.val / binade with _ | q
  · refine ⟨0, m.val, by simp, by simp [units, hq], ?_, by omega, .inl rfl⟩
    rw [hq] at hsplit
    omega
  · have hval : m.val = q * binade + (binade + m.val % binade) := by
      rw [hq, Nat.mul_comm, Nat.add_mul] at hsplit
      omega
    have hlast : m.val / binade < 2047 := Nat.div_lt_of_lt_mul (Nat.mul_comm _ _ ▸ m.isLt)
    refine ⟨q, binade + m.val % binade, hval, ?_, by omega, by omega, .inr (by omega)⟩
    have hsteps : m.val - q * binade = binade + m.val % binade := by omega
    simp only [units, hq, Nat.add_sub_cancel, hsteps]
    rfl

/-- A magnitude is nearest to its own units. -/
theorem nearest?_units (m : Magnitude) : nearest? (units m) unitsInOne = some m := by
  obtain ⟨doublings, steps, hval, hunits, hlt, -, hle⟩ := exists_units_eq m
  have hone := unitsInOne_pos
  -- The doublings show in the number of binary digits of the units.
  have hlog : Nat.log2 (units m) - 52 = doublings := by
    rcases hle with rfl | hle
    · have hsmall : Nat.log2 (units m) < 53 := by
        rcases Nat.eq_zero_or_pos (units m) with hzero | hpos
        · rw [hzero]
          decide
        · rw [Nat.log2_lt (by omega), hunits]
          have hbound : 2 * binade = 2 ^ 53 := by decide
          omega
      omega
    · have hbinade : binade = 2 ^ 52 := rfl
      have hpow : 0 < 2 ^ doublings := Nat.two_pow_pos doublings
      have hlow : 2 ^ (52 + doublings) ≤ units m := by
        rw [Nat.pow_add, hunits]
        exact Nat.mul_le_mul_right _ (hbinade ▸ hle)
      have hhigh : units m < 2 ^ (52 + doublings + 1) := by
        have hnext : 2 ^ (52 + doublings + 1) = 2 * binade * 2 ^ doublings := by
          rw [hbinade]
          ring
        rw [hnext, hunits]
        exact Nat.mul_lt_mul_of_pos_right hlt hpow
      have hne : units m ≠ 0 := by
        have := Nat.two_pow_pos (52 + doublings)
        omega
      have hge := (Nat.le_log2 hne).mpr hlow
      have hlt' := (Nat.log2_lt hne).mpr hhigh
      omega
  have hplace : nearestPlace (units m) unitsInOne = m.val := by
    have hround : roundQuotient (units m * unitsInOne) (unitsInOne * Nat.pow 2 doublings) =
        steps := by
      rw [Nat.mul_comm unitsInOne, roundQuotient_mul_right _ _ hone, hunits]
      exact roundQuotient_mul_self steps (Nat.two_pow_pos doublings)
    simp only [nearestPlace, Nat.mul_div_cancel _ hone, hlog, hround]
    exact hval.symm
  simp [nearest?, hplace]

/-- The units of every magnitude are below two binades with the greatest number of
doublings. -/
theorem units_lt (m : Magnitude) {last : Nat} (hlast : 2045 ≤ last) :
    units m < 2 * binade * 2 ^ last := by
  obtain ⟨doublings, steps, -, hunits, hlt, hle, -⟩ := exists_units_eq m
  rw [hunits]
  have hpow : 2 ^ doublings ≤ 2 ^ last := Nat.pow_le_pow_right (by decide) (hle.trans hlast)
  exact Nat.mul_lt_mul_of_lt_of_le hlt hpow (Nat.two_pow_pos last)

theorem units_pos {m : Magnitude} (h : m ≠ zero) : 0 < units m := by
  obtain ⟨doublings, steps, hval, hunits, -, -, hle⟩ := exists_units_eq m
  have hm : m.val ≠ 0 := fun hzero => h (Fin.ext hzero)
  have hbinade : 0 < binade := by decide
  have hsteps : 0 < steps := by
    rcases hle with rfl | hle
    · omega
    · omega
  rw [hunits]
  exact Nat.mul_pos hsteps (Nat.two_pow_pos doublings)

end Binary64

end MipsAssembly
