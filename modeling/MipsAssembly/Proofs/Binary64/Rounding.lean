import Mathlib.Algebra.Order.Field.Power
import Mathlib.Algebra.Ring.Parity
import Mathlib.Data.Rat.Cast.Order
import Mathlib.Order.Monotone.Basic
import Mathlib.Tactic.FieldSimp
import Mathlib.Tactic.Linarith
import Mathlib.Tactic.Positivity
import MipsAssembly.Proofs.Binary64.Nearest

/-!
# Decimal numerals are rounded correctly

The magnitude that a decimal numeral stands for is the one nearest to its exact value, and the even
one of two that are equally near.  There is none exactly if the value lies at or beyond the middle
between the greatest magnitude and the next power of two, where rounding would go to that power.

Places without end are compared first: what is nearest among them is so among the magnitudes, too,
and it is a magnitude exactly in front of that middle.

## Main definitions

- `Binary64.toRat` — the exact value of a magnitude.
- `Binary64.RoundsTo` — rounding to the nearest magnitude, ties to even.
- `Binary64.IsNearest` — the same for a row of numbers without end.
- `Binary64.isNearest_nearestPlace` — the place of a quotient is the nearest one.
- `Binary64.nearestDecimal?_eq_some_iff` — decimal numerals are rounded in this way.
- `Binary64.isFinite_ofDecimal_iff` — which of them stand for a finite number.
-/

namespace MipsAssembly

namespace Binary64

/-- The exact value of a magnitude. -/
def toRat (m : Magnitude) : ℚ :=
  units m / unitsInOne

/-- A number that is not negative rounds to a magnitude: it lies in front of the middle between the
greatest magnitude and the next power of two, no magnitude is nearer, and the magnitude is even
if another one is as near. -/
structure RoundsTo (q : ℚ) (m : Magnitude) : Prop where
  inRange : q < 2 ^ 1024 - 2 ^ 970
  nearest : ∀ n, |toRat m - q| ≤ |toRat n - q|
  even : ∀ n, n ≠ m → |toRat n - q| = |toRat m - q| → Even m.val

/-! ## The nearest of a row of numbers -/

/-- No number of a row is nearer than the one at a place, which is even if another one is as
near. -/
structure IsNearest (row : ℕ → ℚ) (x : ℚ) (place : ℕ) : Prop where
  nearest : ∀ other, |row place - x| ≤ |row other - x|
  even : ∀ other, other ≠ place → |row other - x| = |row place - x| → Even place

variable {row : ℕ → ℚ} {x : ℚ} {place : ℕ}

theorem isNearest_lower (hrow : StrictMono row) (hlow : row place ≤ x)
    (hhalf : 2 * x ≤ row place + row (place + 1))
    (heven : 2 * x = row place + row (place + 1) → Even place) : IsNearest row x place := by
  have hnext : row place < row (place + 1) := hrow (Nat.lt_succ_self place)
  have hplace : |row place - x| = x - row place := by
    rw [abs_sub_comm, abs_of_nonneg (sub_nonneg.mpr hlow)]
  constructor
  · intro other
    rw [hplace]
    rcases Nat.lt_or_ge place other with hlt | hge
    · have hother : row (place + 1) ≤ row other := hrow.monotone hlt
      exact le_trans (by linarith) (le_abs_self _)
    · have hother : row other ≤ row place := hrow.monotone hge
      exact le_trans (by linarith) (neg_le_abs _)
  · intro other hne hsame
    rw [hplace] at hsame
    rcases Nat.lt_or_gt_of_ne hne with hlt | hgt
    · have hother : row other < row place := hrow hlt
      have hfar := neg_le_abs (row other - x)
      linarith
    · have hother : row (place + 1) ≤ row other := hrow.monotone hgt
      have hfar := le_abs_self (row other - x)
      exact heven (by linarith)

theorem isNearest_upper (hrow : StrictMono row) (hhigh : x ≤ row (place + 1))
    (hhalf : row place + row (place + 1) ≤ 2 * x)
    (heven : 2 * x = row place + row (place + 1) → Even (place + 1)) :
    IsNearest row x (place + 1) := by
  have hnext : row place < row (place + 1) := hrow (Nat.lt_succ_self place)
  have hplace : |row (place + 1) - x| = row (place + 1) - x :=
    abs_of_nonneg (sub_nonneg.mpr hhigh)
  constructor
  · intro other
    rw [hplace]
    rcases Nat.lt_or_ge place other with hlt | hge
    · have hother : row (place + 1) ≤ row other := hrow.monotone hlt
      exact le_trans (by linarith) (le_abs_self _)
    · have hother : row other ≤ row place := hrow.monotone hge
      exact le_trans (by linarith) (neg_le_abs _)
  · intro other hne hsame
    rw [hplace] at hsame
    rcases Nat.lt_or_gt_of_ne hne with hlt | hgt
    · have hother : row other ≤ row place := hrow.monotone (Nat.le_of_lt_succ hlt)
      have hfar := neg_le_abs (row other - x)
      exact heven (by linarith)
    · have hother : row (place + 1) < row other := hrow hgt
      have hfar := le_abs_self (row other - x)
      linarith

/-- The nearest place lies behind an odd one exactly if the number is not in front of the middle
between the two. -/
theorem IsNearest.le_iff (h : IsNearest row x place) (hrow : StrictMono row) {last : ℕ}
    (hodd : ¬ Even last) : place ≤ last ↔ 2 * x < row last + row (last + 1) := by
  have hnext : row last < row (last + 1) := hrow (Nat.lt_succ_self last)
  constructor
  · intro hle
    by_contra hbeyond
    have hplace : row place ≤ row last := hrow.monotone hle
    have hfar := neg_le_abs (row place - x)
    have hnear := h.nearest (last + 1)
    -- The number behind the middle is at least as near, so it is as near, and the place is `last`.
    have hsucc : |row (last + 1) - x| ≤ x - row last :=
      abs_le.mpr ⟨by linarith, by linarith⟩
    have heven : Even place := h.even (last + 1) (by omega) (by linarith)
    have hlast : row last ≤ row place := by linarith
    rw [Nat.le_antisymm hle (hrow.le_iff_le.mp hlast)] at heven
    exact hodd heven
  · intro hhalf
    by_contra hgt
    have hplace : row (last + 1) ≤ row place := hrow.monotone (Nat.not_le.mp hgt)
    have hfar := le_abs_self (row place - x)
    have hlast : |row last - x| < row (last + 1) - x :=
      abs_lt.mpr ⟨by linarith, by linarith⟩
    have hnear := h.nearest last
    linarith

/-! ## The places of magnitudes -/

/-- How many units the magnitude at a place has, if magnitudes went on without end. -/
def unitsAt (place : ℕ) : ℕ :=
  let doublings := place / binade - 1
  (place - doublings * binade) * Nat.pow 2 doublings

theorem unitsAt_val (m : Magnitude) : unitsAt m.val = units m :=
  rfl

/-- From a place on, magnitudes are the same distance apart up to the next binade. -/
theorem unitsAt_eq {doublings steps : ℕ} (hstart : doublings = 0 ∨ binade ≤ steps)
    (hsteps : steps ≤ 2 * binade) :
    unitsAt (doublings * binade + steps) = steps * 2 ^ doublings := by
  have hbinade : 0 < binade := by decide
  have hdiv : (doublings * binade + steps) / binade = doublings + steps / binade := by
    rw [Nat.add_comm, Nat.add_mul_div_right _ _ hbinade, Nat.add_comm]
  rcases Nat.lt_or_ge steps binade with hlt | hge
  · obtain rfl : doublings = 0 := hstart.resolve_right (Nat.not_le.mpr hlt)
    simp [unitsAt, Nat.div_eq_of_lt hlt]
  rcases Nat.lt_or_ge steps (2 * binade) with hlt | hge'
  · have hone : steps / binade = 1 :=
      Nat.div_eq_of_lt_le (by rwa [Nat.one_mul]) hlt
    simp [unitsAt, hdiv, hone]
  · obtain rfl : steps = 2 * binade := Nat.le_antisymm hsteps hge'
    have htwo : 2 * binade / binade = 2 := Nat.mul_div_cancel 2 hbinade
    have hrest : doublings * binade + 2 * binade - (doublings + 1) * binade = binade := by
      rw [Nat.add_mul]
      omega
    simp only [unitsAt, hdiv, htwo, Nat.add_succ_sub_one, hrest]
    show binade * 2 ^ (doublings + 1) = 2 * binade * 2 ^ doublings
    ring

/-- Every place is reached by some doublings and some steps of that size. -/
theorem exists_place_eq (place : ℕ) :
    ∃ doublings steps, place = doublings * binade + steps ∧
      (doublings = 0 ∨ binade ≤ steps) ∧ steps < 2 * binade := by
  have hmod := Nat.mod_lt place (by decide : 0 < binade)
  have hsplit := Nat.div_add_mod place binade
  rcases hq : place / binade with _ | q
  · rw [hq] at hsplit
    exact ⟨0, place, by omega, .inl rfl, by omega⟩
  · rw [hq, Nat.mul_comm, Nat.add_mul] at hsplit
    exact ⟨q, binade + place % binade, by omega, .inr (by omega), by omega⟩

theorem strictMono_unitsAt : StrictMono unitsAt := by
  apply strictMono_nat_of_lt_succ
  intro place
  obtain ⟨doublings, steps, rfl, hstart, hsteps⟩ := exists_place_eq place
  have hnext : doublings = 0 ∨ binade ≤ steps + 1 := hstart.imp_right Nat.le_succ_of_le
  rw [Nat.add_assoc, unitsAt_eq hstart hsteps.le, unitsAt_eq hnext hsteps]
  exact Nat.mul_lt_mul_of_pos_right (Nat.lt_succ_self steps) (Nat.two_pow_pos doublings)

theorem strictMono_cast_unitsAt : StrictMono fun place => (unitsAt place : ℚ) :=
  Nat.strictMono_cast.comp strictMono_unitsAt

/-- As many doublings as keep 53 binary digits leave steps of the right number. -/
theorem steps_bounds (n d : ℕ) :
    let doublings := Nat.log2 (n / d) - 52
    let steps := n / (d * 2 ^ doublings)
    (doublings = 0 ∨ binade ≤ steps) ∧ steps < 2 * binade := by
  intro doublings steps
  have hsteps : steps = n / d / 2 ^ doublings := (Nat.div_div_eq_div_mul n d _).symm
  have hbinade : binade = 2 ^ 52 := rfl
  constructor
  · rcases Nat.eq_zero_or_pos doublings with hzero | hpos
    · exact .inl hzero
    · right
      have hlog : doublings + 52 = Nat.log2 (n / d) := by omega
      have hne : n / d ≠ 0 := by
        intro hzero
        rw [hzero] at hlog
        simp at hlog
      rw [hsteps, hbinade, Nat.le_div_iff_mul_le (Nat.two_pow_pos _), ← Nat.pow_add]
      exact (Nat.le_log2 hne).mp (by omega)
  · rw [hsteps, Nat.div_lt_iff_lt_mul (Nat.two_pow_pos _)]
    calc n / d < 2 ^ (Nat.log2 (n / d) + 1) := Nat.lt_log2_self
      _ ≤ 2 ^ (53 + doublings) := Nat.pow_le_pow_right (by decide) (by omega)
      _ = 2 * binade * 2 ^ doublings := by rw [hbinade]; ring

theorem even_place_iff (doublings steps : ℕ) : Even (doublings * binade + steps) ↔ Even steps := by
  have hbinade : Even (doublings * binade) := (even_iff_two_dvd.mpr (by decide)).mul_left doublings
  simp [Nat.even_add, hbinade]

theorem cast_unitsAt_eq {doublings steps : ℕ} (hstart : doublings = 0 ∨ binade ≤ steps)
    (hsteps : steps < 2 * binade) :
    (unitsAt (doublings * binade + steps) : ℚ) = steps * 2 ^ doublings ∧
      (unitsAt (doublings * binade + steps + 1) : ℚ) = (steps + 1) * 2 ^ doublings := by
  have hnext : doublings = 0 ∨ binade ≤ steps + 1 := hstart.imp_right Nat.le_succ_of_le
  constructor
  · exact_mod_cast unitsAt_eq hstart hsteps.le
  · rw [Nat.add_assoc, unitsAt_eq hnext hsteps]
    push_cast
    rfl

variable {n d doublings steps rest : ℕ}

/-- The quotient of a number that is divided into steps of equal size and a rest. -/
theorem quotient_eq (hd : 0 < d) (hsplit : d * 2 ^ doublings * steps + rest = n) :
    (n / d : ℚ) = steps * 2 ^ doublings + rest / d := by
  have hd' : (d : ℚ) ≠ 0 := Nat.cast_ne_zero.mpr hd.ne'
  rw [← hsplit]
  push_cast
  rw [add_div, mul_assoc, mul_div_cancel_left₀ _ hd', mul_comm]

/-- The quotient lies between the place of its steps and the next one. -/
theorem quotient_between (hd : 0 < d) (hsplit : d * 2 ^ doublings * steps + rest = n)
    (hrest : rest < d * 2 ^ doublings) (hstart : doublings = 0 ∨ binade ≤ steps)
    (hsteps : steps < 2 * binade) :
    (unitsAt (doublings * binade + steps) : ℚ) ≤ n / d ∧
      (n / d : ℚ) ≤ unitsAt (doublings * binade + steps + 1) := by
  obtain ⟨hlower, hupper⟩ := cast_unitsAt_eq hstart hsteps
  have hd' : (0 : ℚ) < d := Nat.cast_pos.mpr hd
  rw [hlower, hupper, quotient_eq hd hsplit]
  constructor
  · exact le_add_of_nonneg_right (by positivity)
  · have hpart : (rest / d : ℚ) ≤ 2 ^ doublings := by
      rw [div_le_iff₀ hd', mul_comm]
      exact_mod_cast hrest.le
    linarith

/-- The middle between the two places is where twice the rest is one step. -/
theorem quotient_sub_middle (hd : 0 < d) (hsplit : d * 2 ^ doublings * steps + rest = n)
    (hstart : doublings = 0 ∨ binade ≤ steps) (hsteps : steps < 2 * binade) :
    2 * (n / d : ℚ) - (unitsAt (doublings * binade + steps) +
      unitsAt (doublings * binade + steps + 1)) =
      ((2 * rest : ℕ) - (d * 2 ^ doublings : ℕ)) / d := by
  obtain ⟨hlower, hupper⟩ := cast_unitsAt_eq hstart hsteps
  have hd' : (d : ℚ) ≠ 0 := Nat.cast_ne_zero.mpr hd.ne'
  rw [quotient_eq hd hsplit, hlower, hupper, sub_div]
  push_cast
  rw [mul_div_cancel_left₀ _ hd']
  ring

/-- Rounding a quotient to steps of equal size gives the nearest place, if the place has steps of
this size. -/
theorem isNearest_roundQuotient (hd : 0 < d)
    (hstart : doublings = 0 ∨ binade ≤ n / (d * 2 ^ doublings))
    (hsteps : n / (d * 2 ^ doublings) < 2 * binade) :
    IsNearest (fun place => (unitsAt place : ℚ)) (n / d)
      (doublings * binade + roundQuotient n (d * 2 ^ doublings)) := by
  have hd' : (0 : ℚ) < d := Nat.cast_pos.mpr hd
  have hrest : n % (d * 2 ^ doublings) < d * 2 ^ doublings :=
    Nat.mod_lt n (Nat.mul_pos hd (Nat.two_pow_pos doublings))
  have hsplit := Nat.div_add_mod n (d * 2 ^ doublings)
  unfold roundQuotient
  generalize n / (d * 2 ^ doublings) = steps at *
  generalize n % (d * 2 ^ doublings) = rest at *
  obtain ⟨hlow, hhigh⟩ := quotient_between hd hsplit hrest hstart hsteps
  have hmiddle := quotient_sub_middle hd hsplit hstart hsteps
  dsimp only
  split_ifs with hdown hup
  · have hneg : ((2 * rest : ℕ) : ℚ) < (d * 2 ^ doublings : ℕ) := by exact_mod_cast hdown
    have hhalf := div_neg_of_neg_of_pos (sub_neg.mpr hneg) hd'
    exact isNearest_lower strictMono_cast_unitsAt hlow (by linarith) (by intro h; linarith)
  · have hpos : ((d * 2 ^ doublings : ℕ) : ℚ) < (2 * rest : ℕ) := by exact_mod_cast hup
    have hhalf := div_pos (sub_pos.mpr hpos) hd'
    rw [← Nat.add_assoc]
    exact isNearest_upper strictMono_cast_unitsAt hhigh (by linarith) (by intro h; linarith)
  · have htie : 2 * rest = d * 2 ^ doublings := by omega
    rw [htie, sub_self, zero_div] at hmiddle
    rcases Nat.even_or_odd steps with heven | hodd
    · rw [Nat.even_iff.mp heven, Nat.add_zero]
      exact isNearest_lower strictMono_cast_unitsAt hlow (by linarith)
        fun _ => (even_place_iff doublings steps).mpr heven
    · have heven : Even (doublings * binade + steps + 1) := by
        rw [Nat.add_assoc, even_place_iff]
        exact hodd.add_one
      rw [Nat.odd_iff.mp hodd, ← Nat.add_assoc]
      exact isNearest_upper strictMono_cast_unitsAt hhigh (by linarith) fun _ => heven

/-- The place of a quotient is the nearest one to the quotient in units. -/
theorem isNearest_nearestPlace (n : ℕ) {d : ℕ} (hd : 0 < d) :
    IsNearest (fun place => (unitsAt place : ℚ)) (n / d * unitsInOne) (nearestPlace n d) := by
  obtain ⟨hstart, hsteps⟩ := steps_bounds (n * unitsInOne) d
  have hnearest := isNearest_roundQuotient hd hstart hsteps
  have hunits : (n / d * unitsInOne : ℚ) = (n * unitsInOne : ℕ) / d := by
    rw [Nat.cast_mul, div_mul_eq_mul_div]
  rw [hunits]
  exact hnearest

/-! ## Magnitudes -/

theorem cast_unitsInOne_pos : (0 : ℚ) < unitsInOne :=
  Nat.cast_pos.mpr unitsInOne_pos

theorem not_even_last : ¬ Even (magnitudes - 1) := by
  decide

/-- Behind the last magnitude, which is odd, the middle is where rounding leaves the magnitudes. -/
theorem middle_eq : (unitsAt (magnitudes - 1) + unitsAt (magnitudes - 1 + 1) : ℚ) =
    2 * ((2 ^ 1024 - 2 ^ 970) * unitsInOne) := by
  have hplace : magnitudes - 1 = 2045 * binade + (2 * binade - 1) := by decide
  have hbehind : magnitudes - 1 + 1 = 2045 * binade + 2 * binade := by decide
  have hbinade : 2 * binade = 2 ^ 53 := by decide
  have hpower : 2 ^ 2045 = 2 * 2 ^ 970 * unitsInOne := by decide +kernel
  have hlimit : (2 : ℚ) ^ 1024 - 2 ^ 970 = (2 ^ 54 - 1) * (2 ^ 970 : ℕ) := by
    rw [Nat.cast_pow, Nat.cast_ofNat, sub_one_mul, ← pow_add]
  generalize 2 ^ 970 = ulp at hpower hlimit
  have hlast : unitsAt (magnitudes - 1) = (2 ^ 53 - 1) * (2 * ulp * unitsInOne) := by
    rw [hplace, unitsAt_eq (.inr (by decide)) (by decide), hpower, hbinade]
  have hnext : unitsAt (magnitudes - 1 + 1) = 2 ^ 53 * (2 * ulp * unitsInOne) := by
    rw [hbehind, unitsAt_eq (.inr (by decide)) le_rfl, hpower, hbinade]
  rw [hlast, hnext, hlimit]
  push_cast
  ring

/-- What is nearest among all places is a magnitude exactly in front of that middle. -/
theorem IsNearest.lt_magnitudes_iff {q : ℚ}
    (h : IsNearest (fun place => (unitsAt place : ℚ)) (q * unitsInOne) place) :
    place < magnitudes ↔ q < 2 ^ 1024 - 2 ^ 970 := by
  have hlast : place < magnitudes ↔ place ≤ magnitudes - 1 :=
    Nat.lt_iff_le_pred (by decide)
  rw [hlast, h.le_iff strictMono_cast_unitsAt not_even_last, middle_eq,
    mul_lt_mul_iff_right₀ (by norm_num), mul_lt_mul_iff_left₀ cast_unitsInOne_pos]

theorem abs_toRat_sub (m : Magnitude) (q : ℚ) :
    |toRat m - q| = |(unitsAt m.val : ℚ) - q * unitsInOne| / unitsInOne := by
  have hscaled : toRat m - q = (unitsAt m.val - q * unitsInOne) / unitsInOne := by
    rw [sub_div, mul_div_cancel_right₀ _ cast_unitsInOne_pos.ne', unitsAt_val, toRat]
  rw [hscaled, abs_div, abs_of_pos cast_unitsInOne_pos]

theorem IsNearest.roundsTo {q : ℚ} {m : Magnitude}
    (h : IsNearest (fun place => (unitsAt place : ℚ)) (q * unitsInOne) m.val) :
    RoundsTo q m where
  inRange := h.lt_magnitudes_iff.mp m.isLt
  nearest := by
    intro n
    rw [abs_toRat_sub, abs_toRat_sub]
    exact div_le_div_of_nonneg_right (h.nearest n.val) (Nat.cast_nonneg _)
  even := by
    intro n hne hsame
    rw [abs_toRat_sub, abs_toRat_sub, div_left_inj' cast_unitsInOne_pos.ne'] at hsame
    exact h.even n.val (fun heq => hne (Fin.ext heq)) hsame

theorem strictMono_toRat : StrictMono toRat := by
  intro m n hlt
  exact div_lt_div_of_pos_right (strictMono_cast_unitsAt hlt) cast_unitsInOne_pos

/-- Of two even magnitudes that are equally near there is a nearer one in between. -/
theorem RoundsTo.not_lt {q : ℚ} {m n : Magnitude} (hm : RoundsTo q m) (hn : RoundsTo q n) :
    ¬ m < n := by
  intro hlt
  have hsame : |toRat n - q| = |toRat m - q| := le_antisymm (hn.nearest m) (hm.nearest n)
  have hmeven := Nat.even_iff.mp (hm.even n hlt.ne' hsame)
  have hneven := Nat.even_iff.mp (hn.even m hlt.ne hsame.symm)
  have hval : m.val < n.val := hlt
  have hlow : toRat m < toRat ⟨m.val + 1, by omega⟩ := strictMono_toRat (Nat.lt_succ_self m.val)
  have hhigh : toRat ⟨m.val + 1, by omega⟩ < toRat n :=
    strictMono_toRat (show m.val + 1 < n.val by omega)
  have hcloser := hm.nearest ⟨m.val + 1, by omega⟩
  rcases abs_eq_abs.mp hsame with heq | hneg
  · exact absurd (strictMono_toRat hlt) (by linarith)
  · have hnear : |toRat ⟨m.val + 1, by omega⟩ - q| < q - toRat m :=
      abs_lt.mpr ⟨by linarith, by linarith⟩
    have hfar := neg_le_abs (toRat m - q)
    linarith

theorem RoundsTo.unique {q : ℚ} {m n : Magnitude} (hm : RoundsTo q m) (hn : RoundsTo q n) :
    m = n :=
  le_antisymm (le_of_not_gt (hn.not_lt hm)) (le_of_not_gt (hm.not_lt hn))

/-! ## Decimal numerals -/

theorem nearest?_eq_some_iff {n d : ℕ} {m : Magnitude} :
    nearest? n d = some m ↔ nearestPlace n d = m.val := by
  unfold nearest?
  dsimp only
  split
  · rw [Option.some.injEq, Fin.ext_iff]
  · next h =>
    constructor
    · intro hnone
      cases hnone
    · intro hplace
      exact absurd (hplace ▸ m.isLt) h

/-- A number is less than ten to the number of its digits, and no less than a tenth of that. -/
theorem width_bounds {digits : ℕ} (h : digits ≠ 0) :
    (10 : ℚ) ^ ((Numeral.decimal digits).length - 1 : ℤ) ≤ digits ∧
      (digits : ℚ) < 10 ^ ((Numeral.decimal digits).length : ℤ) := by
  have hpos := Numeral.length_decimal_pos digits
  have hupper : digits < 10 ^ (Numeral.decimal digits).length :=
    (Numeral.length_decimal_le_iff hpos).mp le_rfl
  have hlower : 10 ^ ((Numeral.decimal digits).length - 1) ≤ digits := by
    rcases Nat.eq_zero_or_pos ((Numeral.decimal digits).length - 1) with hzero | hpred
    · rw [hzero]
      omega
    · by_contra hlt
      have hwidth := (Numeral.length_decimal_le_iff hpred).mpr (Nat.not_le.mp hlt)
      omega
  constructor
  · have hpred : ((Numeral.decimal digits).length - 1 : ℤ) =
        ((Numeral.decimal digits).length - 1 : ℕ) := by omega
    rw [hpred, zpow_natCast]
    exact_mod_cast hlower
  · rw [zpow_natCast]
    exact_mod_cast hupper

/-- Ten to the bound is beyond the magnitudes. -/
theorem limit_le_exponentBound : (2 : ℚ) ^ 1024 - 2 ^ 970 ≤ 10 ^ exponentBound := by
  have hbound : (10 : ℚ) ^ exponentBound = 10 ^ 400 := zpow_natCast 10 400
  calc (2 : ℚ) ^ 1024 - 2 ^ 970 ≤ 2 ^ 1024 := sub_le_self _ (by positivity)
    _ ≤ 2 ^ (3 * 400) := pow_le_pow_right₀ one_le_two (by norm_num)
    _ = (2 ^ 3) ^ 400 := pow_mul 2 3 400
    _ ≤ 10 ^ 400 := pow_le_pow_left₀ (by positivity) (by norm_num) 400
    _ = 10 ^ exponentBound := hbound.symm

/-- Below the reciprocal there is less than half a unit. -/
theorem exponentBound_lt_half : (10 : ℚ) ^ (-exponentBound) * unitsInOne < 1 / 2 := by
  have hbound : (10 : ℚ) ^ (-exponentBound) = ((10 ^ 400 : ℕ) : ℚ)⁻¹ := by
    rw [Nat.cast_pow, Nat.cast_ofNat, zpow_neg]
    exact congrArg _ (zpow_natCast 10 400)
  have hhalf : 2 * unitsInOne < 10 ^ 400 := by decide +kernel
  generalize 10 ^ 400 = power at hbound hhalf
  have hpos : (0 : ℚ) < power := Nat.cast_pos.mpr (by omega)
  have hcast : (2 * unitsInOne : ℚ) < power := by exact_mod_cast hhalf
  rw [hbound, inv_mul_lt_iff₀ hpos]
  linarith

theorem isNearest_zero (hpos : 0 ≤ x) (hhalf : x < 1 / 2) :
    IsNearest (fun place => (unitsAt place : ℚ)) x 0 := by
  have hzero : (unitsAt 0 : ℚ) = 0 := Nat.cast_zero
  have hone : (unitsAt (0 + 1) : ℚ) = 1 := Nat.cast_one
  apply isNearest_lower strictMono_cast_unitsAt
  · rwa [hzero]
  · rw [hzero, hone]
    linarith
  · exact fun _ => Even.zero

/-- The nearest place decides to which magnitude a number rounds, if to any. -/
theorem IsNearest.roundsTo_iff {q : ℚ} {m : Magnitude}
    (h : IsNearest (fun place => (unitsAt place : ℚ)) (q * unitsInOne) place) :
    RoundsTo q m ↔ place = m.val := by
  constructor
  · intro hm
    have hplace : place < magnitudes := h.lt_magnitudes_iff.mpr hm.inRange
    have hrounds : RoundsTo q ⟨place, hplace⟩ := IsNearest.roundsTo h
    exact congrArg Fin.val (hrounds.unique hm)
  · rintro rfl
    exact h.roundsTo

/-- A quotient rounds to its nearest magnitude. -/
theorem nearest?_eq_some_iff_roundsTo {n d : ℕ} (hd : 0 < d) {m : Magnitude} :
    nearest? n d = some m ↔ RoundsTo (n / d) m := by
  rw [nearest?_eq_some_iff, (isNearest_nearestPlace n hd).roundsTo_iff]

/-- A decimal numeral stands for the magnitude that its exact value rounds to. -/
theorem nearestDecimal?_eq_some_iff {digits : ℕ} {exponent : ℤ} {m : Magnitude} :
    nearestDecimal? digits exponent = some m ↔ RoundsTo (digits * 10 ^ exponent) m := by
  have hten (power : ℤ) : (0 : ℚ) < 10 ^ power := by positivity
  have hone := cast_unitsInOne_pos
  -- Where less than half a unit is left, zero is the nearest magnitude.
  have hsmall (hhalf : (digits * 10 ^ exponent * unitsInOne : ℚ) < 1 / 2) :
      some zero = some m ↔ RoundsTo (digits * 10 ^ exponent) m := by
    have hpos : (0 : ℚ) ≤ digits * 10 ^ exponent * unitsInOne :=
      mul_nonneg (mul_nonneg (Nat.cast_nonneg digits) (hten exponent).le) hone.le
    rw [(isNearest_zero hpos hhalf).roundsTo_iff, Option.some.injEq, Fin.ext_iff]
    rfl
  unfold nearestDecimal?
  dsimp only
  split_ifs with hzero hlarge htiny hsign
  · apply hsmall
    rw [hzero, Nat.cast_zero, zero_mul, zero_mul]
    norm_num
  · have hlimit : (2 : ℚ) ^ 1024 - 2 ^ 970 ≤ digits * 10 ^ exponent := by
      calc (2 : ℚ) ^ 1024 - 2 ^ 970 ≤ 10 ^ exponentBound := limit_le_exponentBound
        _ ≤ 10 ^ ((Numeral.decimal digits).length - 1 + exponent) :=
          zpow_le_zpow_right₀ (by norm_num) (by omega)
        _ = 10 ^ ((Numeral.decimal digits).length - 1 : ℤ) * 10 ^ exponent :=
          zpow_add₀ (by norm_num) _ _
        _ ≤ digits * 10 ^ exponent :=
          mul_le_mul_of_nonneg_right (width_bounds hzero).1 (hten exponent).le
    constructor
    · intro hnone
      cases hnone
    · intro hm
      exact absurd hm.inRange (not_lt.mpr hlimit)
  · apply hsmall
    calc (digits * 10 ^ exponent * unitsInOne : ℚ)
        ≤ 10 ^ ((Numeral.decimal digits).length : ℤ) * 10 ^ exponent * unitsInOne :=
          mul_le_mul_of_nonneg_right
            (mul_le_mul_of_nonneg_right (width_bounds hzero).2.le (hten exponent).le) hone.le
      _ = 10 ^ ((Numeral.decimal digits).length + exponent) * unitsInOne := by
          rw [zpow_add₀ (by norm_num)]
      _ ≤ 10 ^ (-exponentBound) * unitsInOne :=
          mul_le_mul_of_nonneg_right (zpow_le_zpow_right₀ (by norm_num) htiny.le) hone.le
      _ < 1 / 2 := exponentBound_lt_half
  · have hquotient : (digits * 10 ^ exponent : ℚ) =
        (digits * Nat.pow 10 exponent.toNat : ℕ) / (1 : ℕ) := by
      obtain ⟨power, rfl⟩ := Int.eq_ofNat_of_zero_le hsign
      simp
    rw [hquotient]
    exact nearest?_eq_some_iff_roundsTo Nat.one_pos
  · have hquotient : (digits * 10 ^ exponent : ℚ) =
        digits / (Nat.pow 10 (-exponent).toNat : ℕ) := by
      obtain ⟨power, hpower⟩ := Int.eq_ofNat_of_zero_le (by omega : 0 ≤ -exponent)
      obtain rfl : exponent = -power := by omega
      simp [div_eq_mul_inv]
    rw [hquotient]
    exact nearest?_eq_some_iff_roundsTo (Nat.pow_pos (by decide))

/-- Numbers in front of the middle behind the greatest magnitude round to a magnitude. -/
theorem exists_roundsTo {q : ℚ} (hpos : 0 ≤ q) (hrange : q < 2 ^ 1024 - 2 ^ 970) :
    ∃ m, RoundsTo q m := by
  have hnearest := isNearest_nearestPlace q.num.toNat q.den_pos
  have hquotient : (q.num.toNat / q.den : ℚ) = q := by
    have hnum : ((q.num.toNat : ℤ) : ℚ) = q.num :=
      congrArg Int.cast (Int.toNat_of_nonneg (Rat.num_nonneg.mpr hpos))
    rw [Int.cast_natCast] at hnum
    rw [hnum, Rat.num_div_den]
  rw [hquotient] at hnearest
  exact ⟨⟨_, hnearest.lt_magnitudes_iff.mpr hrange⟩, hnearest.roundsTo⟩

/-- A decimal numeral stands for a finite number exactly if its exact value is in range. -/
theorem isFinite_ofDecimal_iff (negative : Bool) {digits : ℕ} {exponent : ℤ} :
    (ofDecimal negative digits exponent).isFinite = true ↔
      (digits * 10 ^ exponent : ℚ) < 2 ^ 1024 - 2 ^ 970 := by
  have hpos : (0 : ℚ) ≤ digits * 10 ^ exponent := by positivity
  unfold ofDecimal
  constructor
  · intro hfinite
    cases hnearest : nearestDecimal? digits exponent with
    | none =>
      rw [hnearest] at hfinite
      cases hfinite
    | some m => exact (nearestDecimal?_eq_some_iff.mp hnearest).inRange
  · intro hrange
    obtain ⟨m, hm⟩ := exists_roundsTo hpos hrange
    rw [nearestDecimal?_eq_some_iff.mpr hm]
    rfl

end Binary64

end MipsAssembly
