import MipsAssembly.Binary64.Shortest
import MipsAssembly.Proofs.Binary64.Nearest

/-!
# The shortest numeral reads back

Whichever way the shortest decimal numeral of a magnitude is found, on one of the grids or as
the exact value, it stands for that magnitude.

## Main definitions

- `Decimal.Denotes` — a decimal numeral stands for a magnitude.
- `Binary64.denotes_shortest` — the shortest numeral of a magnitude stands for it.
-/

namespace MipsAssembly

/-- A decimal numeral stands for a magnitude. -/
def Decimal.Denotes (d : Decimal) (m : Binary64.Magnitude) : Prop :=
  Binary64.nearestDecimal? d.digits d.exponent = some m

namespace Decimal

theorem Denotes.strip {d : Decimal} {m : Binary64.Magnitude} (h : d.Denotes m) (steps : Nat) :
    (d.strip steps).Denotes m := by
  induction steps generalizing d with
  | zero => exact h
  | succ steps ih =>
    unfold Decimal.strip
    split
    · next hzero =>
      apply ih
      have hten : 10 * (d.digits / 10) = d.digits := by omega
      have hmove := Binary64.nearestDecimal?_ten_mul (d.digits / 10) (d.exponent + 1)
      rw [hten, Int.add_sub_cancel] at hmove
      exact hmove.symm.trans h
    · exact h

end Decimal

namespace Binary64

variable {m : Magnitude}

/-- What is found on a grid has been tried. -/
theorem denotes_of_onGrid? {tie : Tie} {exponent : Int} {d : Decimal}
    (h : onGrid? tie m exponent = some d) : d.Denotes m := by
  unfold onGrid? at h
  simp only at h
  split at h
  · next hbelow habove =>
    cases h
    simpa [Decimal.Denotes] using hbelow
  · next hbelow habove =>
    cases h
    simpa [Decimal.Denotes] using habove
  · cases h
  · next hbelow habove =>
    have hlow := of_decide_eq_true hbelow
    have hhigh := of_decide_eq_true habove
    split at h
    · cases h
      exact hlow
    · split at h
      · cases h
        exact hhigh
      · split at h
        · cases h
          exact hhigh
        · cases h
          -- The even one of the two neighbours is one of them.
          rcases Nat.mod_two_eq_zero_or_one
            ((scaledBy m exponent).1 / (scaledBy m exponent).2) with heven | hodd
          · unfold Decimal.Denotes
            rw [heven]
            exact hlow
          · unfold Decimal.Denotes
            rw [hodd]
            exact hhigh

/-- How the powers of two, five and ten compare that exact values are made of. -/
theorem exact_powers :
    0 < Nat.pow 5 1074 ∧ 10 ^ 673 ≤ Nat.pow 5 1074 ∧
      2 * binade * 2 ^ 2045 * Nat.pow 5 1074 ≤ 10 ^ 1474 := by
  decide +kernel

/-- The exact value has more than `673` and at most `1474` digits, of which `1074` are behind
the point. -/
theorem length_exact (h : m ≠ zero) :
    673 < (Numeral.decimal (exact m).digits).length ∧
      (Numeral.decimal (exact m).digits).length ≤ 1474 := by
  obtain ⟨hfive, hlow, hhigh⟩ := exact_powers
  have hdigits : (exact m).digits = units m * Nat.pow 5 1074 := rfl
  constructor
  · rw [← Nat.not_le, Numeral.length_decimal_le_iff (by decide), Nat.not_lt, hdigits]
    exact hlow.trans (Nat.le_mul_of_pos_left _ (units_pos h))
  · have hunits := units_lt m (Nat.le_refl 2045)
    rw [Numeral.length_decimal_le_iff (by decide), hdigits]
    exact (Nat.mul_lt_mul_of_pos_right hunits hfive).trans_le hhigh

/-- Within the bounds of the exponents, digits behind a point are a quotient. -/
theorem nearestDecimal?_neg {digits places : Nat} (hdigits : digits ≠ 0) (hplaces : 0 < places)
    (hlow : places ≤ (Numeral.decimal digits).length + 400)
    (hhigh : (Numeral.decimal digits).length ≤ places + 400) :
    nearestDecimal? digits (-(places : Int)) = nearest? digits (Nat.pow 10 places) := by
  have hneg : (-(-(places : Int))).toNat = places := by omega
  have hbound : exponentBound = 400 := rfl
  simp only [nearestDecimal?, if_neg hdigits]
  rw [if_neg (by omega), if_neg (by omega), if_neg (by omega), hneg]

/-- The exact value of a magnitude stands for it. -/
theorem denotes_exact (h : m ≠ zero) : (exact m).Denotes m := by
  obtain ⟨hlow, hhigh⟩ := length_exact h
  obtain ⟨hfive, -⟩ := exact_powers
  have hdigits : (exact m).digits = units m * Nat.pow 5 1074 := rfl
  have hne : (exact m).digits ≠ 0 := Nat.ne_of_gt (Nat.mul_pos (units_pos h) hfive)
  obtain ⟨places, hplaces, hten⟩ : ∃ places : Nat, places = 1074 ∧
      Nat.pow 10 places = unitsInOne * Nat.pow 5 1074 := ⟨1074, rfl, by decide +kernel⟩
  have hexponent : (exact m).exponent = -(places : Int) := by rw [hplaces]; rfl
  rw [Decimal.Denotes, hexponent, nearestDecimal?_neg hne (by omega) (by omega) (by omega), hten,
    hdigits, nearest?_mul_right _ _ hfive, nearest?_units]

/-- The shortest numeral of a magnitude stands for it. -/
theorem denotes_shortest (tie : Tie) (h : m ≠ zero) : (shortest tie m).Denotes m := by
  unfold shortest
  simp only
  apply Decimal.Denotes.strip
  cases hfind : List.findSome? (onGrid? tie m)
      ((List.range 17).map fun (n : Nat) => decimalWidth m - (n + 1)) with
  | none => exact denotes_exact h
  | some d =>
    obtain ⟨exponent, -, hgrid⟩ := List.exists_of_findSome?_eq_some hfind
    exact denotes_of_onGrid? hgrid

end Binary64

end MipsAssembly
