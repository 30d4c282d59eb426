import Mathlib.Data.List.Basic
import Mathlib.Data.List.Induction
import Mathlib.Tactic.Ring
import MipsAssembly.Numeral

/-!
# Written numerals read back

The digits that a number is written with stand for that number, in base ten and in base
sixteen.  Zeros in front of digits change nothing, and each zero behind them multiplies by the
base.

## Main definitions

- `Numeral.value_decimal`, `Numeral.value_hexadecimal` — reading undoes writing.
- `Numeral.isDigit_of_mem_decimal`, `Numeral.isHexDigit_of_mem_hexadecimal` — what digits are
  written with.
-/

namespace MipsAssembly

namespace Numeral

variable {base : Nat}

theorem value_append_singleton (base : Nat) (digits : List Char) (c : Char) :
    value base (digits ++ [c]) = base * value base digits + digitValue c := by
  simp [value]

/-- Digits in front count as often as the base and the number of digits behind tell. -/
theorem value_append (base : Nat) (front behind : List Char) :
    value base (front ++ behind) =
      value base front * base ^ behind.length + value base behind := by
  induction behind using List.reverseRecOn with
  | nil => simp [value]
  | append_singleton behind c ih =>
    rw [← List.append_assoc, value_append_singleton, ih, value_append_singleton,
      List.length_append, List.length_singleton, pow_succ]
    ring

/-- Digits stand for no less than those in front. -/
theorem value_le_append (front behind : List Char) :
    value 10 front ≤ value 10 (front ++ behind) := by
  rw [value_append]
  exact Nat.le_add_right_of_le (Nat.le_mul_of_pos_right _ (Nat.pow_pos (by decide)))

/-- Digits in base ten stand for less than the power of ten that their number tells. -/
theorem value_lt_pow {digits : List Char} (h : ∀ c ∈ digits, c.isDigit = true) :
    value 10 digits < 10 ^ digits.length := by
  induction digits using List.reverseRecOn with
  | nil => simp [value]
  | append_singleton digits c ih =>
    obtain ⟨hdigits, hc⟩ := List.forall_mem_append.mp h
    have hfront := ih hdigits
    have hlast : digitValue c < 10 := by
      obtain ⟨-, hhigh⟩ := Bool.and_eq_true_iff.mp (hc c List.mem_cons_self)
      have hhigh : c ≤ '9' := of_decide_eq_true hhigh
      have hcode : c.toNat ≤ 57 := hhigh
      rw [digitValue, if_pos hhigh]
      show c.toNat - 48 < 10
      omega
    rw [value_append_singleton, List.length_append, List.length_singleton, pow_succ]
    omega

@[simp] theorem value_replicate_zero (base count : Nat) :
    value base (List.replicate count '0') = 0 := by
  induction count with
  | zero => rfl
  | succ count ih =>
    rw [List.replicate_succ', value_append_singleton, ih]
    rfl

/-- Writing a number digit by digit is undone by reading, if every digit is written with a
character that is worth it. -/
theorem value_map_toDigits (hbase : 1 < base) (write : Char → Char)
    (hwrite : ∀ digit < base, digitValue (write digit.digitChar) = digit) (n : Nat) :
    value base ((Nat.toDigits base n).map write) = n := by
  induction n using Nat.strongRecOn with
  | ind n ih =>
    rcases Nat.lt_or_ge n base with hlt | hge
    · rw [Nat.toDigits_of_lt_base hlt]
      have hdigit := hwrite n hlt
      simpa [value] using hdigit
    · have hpos : 0 < n := by omega
      have hdigit := hwrite (n % base) (Nat.mod_lt n (by omega))
      rw [Nat.toDigits_of_base_le hbase hge, List.map_append, List.map_singleton,
        value_append_singleton, ih (n / base) (Nat.div_lt_self hpos hbase), hdigit]
      exact Nat.div_add_mod n base

/-- Numerals in base ten read back. -/
@[simp] theorem value_decimal (n : Nat) : value 10 (decimal n) = n := by
  have h := value_map_toDigits (by decide) id (by decide : ∀ digit < 10, _) n
  rwa [List.map_id] at h

/-- Numerals in base sixteen read back. -/
@[simp] theorem value_hexadecimal (n : Nat) : value 16 (hexadecimal n) = n :=
  value_map_toDigits (by decide) Char.toUpper (by decide) n

theorem isDigit_of_mem_decimal (n : Nat) : ∀ c ∈ decimal n, c.isDigit = true :=
  fun _ h => Nat.isDigit_of_mem_toDigits (by decide) (by decide) h

@[simp] theorem decimal_ne_nil (n : Nat) : decimal n ≠ [] :=
  Nat.toDigits_ne_nil

@[simp] theorem hexadecimal_ne_nil (n : Nat) : hexadecimal n ≠ [] := by
  simp [hexadecimal]

/-- The digits of a number satisfy what all single digits do. -/
theorem forall_mem_toDigits (hbase : 1 < base) (P : Char → Prop)
    (hP : ∀ digit < base, P digit.digitChar) (n : Nat) : ∀ c ∈ Nat.toDigits base n, P c := by
  induction n using Nat.strongRecOn with
  | ind n ih =>
    intro c hc
    rcases Nat.lt_or_ge n base with hlt | hge
    · rw [Nat.toDigits_of_lt_base hlt, List.mem_singleton] at hc
      exact hc ▸ hP n hlt
    · rw [Nat.toDigits_of_base_le hbase hge, List.mem_append, List.mem_singleton] at hc
      rcases hc with hc | rfl
      · exact ih (n / base) (Nat.div_lt_self (by omega) hbase) c hc
      · exact hP _ (Nat.mod_lt n (by omega))

theorem isHexDigit_of_mem_hexadecimal (n : Nat) : ∀ c ∈ hexadecimal n, isHexDigit c = true := by
  intro c h
  obtain ⟨digit, hmem, rfl⟩ := List.mem_map.mp h
  exact forall_mem_toDigits (by decide) (fun c => isHexDigit c.toUpper = true) (by decide) n
    digit hmem

/-- Only zero is written with a zero in front. -/
theorem head?_decimal {n : Nat} (hn : n ≠ 0) : (decimal n).head? ≠ some '0' := by
  induction n using Nat.strongRecOn with
  | ind n ih =>
    rcases Nat.lt_or_ge n 10 with hlt | hge
    · have hdigit : ∀ digit < 10, digit ≠ 0 → digit.digitChar ≠ '0' := by decide
      rw [decimal, Nat.toDigits_of_lt_base hlt, List.head?_cons]
      exact fun h => hdigit n hlt hn (Option.some.inj h)
    · have hfront := ih (n / 10) (Nat.div_lt_self (by omega) (by decide)) (by omega)
      rw [decimal, Nat.toDigits_of_base_le (by decide) hge,
        List.head?_append_of_ne_nil _ Nat.toDigits_ne_nil]
      exact hfront

/-- One more digit behind those of a number that is not zero. -/
theorem length_decimal_ten_mul {n : Nat} (hn : 0 < n) :
    (decimal (10 * n)).length = (decimal n).length + 1 := by
  have happend := Nat.toDigits_append_toDigits (by decide : 1 < 10) hn (by decide : 0 < 10)
  rw [decimal, ← Nat.add_zero (10 * n), ← happend, List.length_append]
  rfl

theorem length_decimal_pos (n : Nat) : 0 < (decimal n).length :=
  Nat.length_toDigits_pos

/-- A number below a power of ten has no more digits than it tells, and conversely. -/
theorem length_decimal_le_iff {n width : Nat} (hwidth : 0 < width) :
    (decimal n).length ≤ width ↔ n < 10 ^ width :=
  Nat.length_toDigits_le_iff (by decide) hwidth

end Numeral

end MipsAssembly
