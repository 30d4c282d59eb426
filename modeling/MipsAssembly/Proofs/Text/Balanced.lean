import Mathlib.Data.List.Basic
import MipsAssembly.Render

/-!
# Matching parentheses

A text is balanced if each of its parentheses is closed in it, and none is closed that it does not
open.  A pair of parentheses in a text matches if what stands between the two is balanced.  If the
front of a text is balanced, a matching pair lies in the front or behind it, never across.

## Main definitions

- `openBehind` — how many parentheses are open behind a text.
- `Balanced` — each parenthesis is closed.
- `Encloses` — a matching pair of parentheses splits a text into three parts.
- `Encloses.append_cases` — where a pair of a text with a balanced front lies.
-/

namespace MipsAssembly

/-- How many parentheses are open behind a text, if `count` are open in front of it; none if one is
closed that is not open. -/
def openBehind (count : Nat) : List Char → Option Nat
  | [] => some count
  | '(' :: cs => openBehind (count + 1) cs
  | ')' :: cs =>
    match count with
    | 0 => none
    | count + 1 => openBehind count cs
  | _ :: cs => openBehind count cs

/-- Each parenthesis of a text is closed in it. -/
def Balanced (cs : List Char) : Prop :=
  openBehind 0 cs = some 0

instance (cs : List Char) : Decidable (Balanced cs) :=
  inferInstanceAs (Decidable (_ = _))

/-- A matching pair of parentheses, with what stands before, inside and after it. -/
structure Encloses (cs before inside after : List Char) : Prop where
  eq : cs = before ++ '(' :: (inside ++ ')' :: after)
  balanced : Balanced inside

variable {as bs cs front behind before inside after : List Char}

theorem openBehind_append (count : Nat) (as bs : List Char) :
    openBehind count (as ++ bs) = (openBehind count as).bind (openBehind · bs) := by
  fun_induction openBehind count as with
  | case1 => rfl
  | case2 count cs ih => exact ih
  | case3 cs => rfl
  | case4 cs count ih => exact ih
  | case5 count c cs hopen hclose ih =>
    rw [List.cons_append, openBehind, ih]
    · exact hopen
    · exact hclose

/-- Parentheses that are open in front stay open. -/
theorem openBehind_add {count result : Nat} (h : openBehind count as = some result) (more : Nat) :
    openBehind (count + more) as = some (result + more) := by
  fun_induction openBehind count as with
  | case1 count =>
    cases h
    rfl
  | case2 count cs ih =>
    rw [openBehind, Nat.add_right_comm]
    exact ih h
  | case3 cs => cases h
  | case4 cs count ih =>
    rw [Nat.succ_add, openBehind]
    exact ih h
  | case5 count c cs hopen hclose ih =>
    rw [openBehind]
    · exact ih h
    · exact hopen
    · exact hclose

theorem Balanced.openBehind_eq (h : Balanced as) (count : Nat) :
    openBehind count as = some count := by
  simpa using openBehind_add h count

theorem balanced_of_forall (h : ∀ c ∈ as, c ≠ '(' ∧ c ≠ ')') : Balanced as := by
  induction as with
  | nil => rfl
  | cons c as ih =>
    obtain ⟨⟨hopen, hclose⟩, has⟩ := List.forall_mem_cons.mp h
    rw [Balanced, openBehind]
    · exact ih has
    · exact hopen
    · exact hclose

theorem Balanced.append (h : Balanced as) (h' : Balanced bs) : Balanced (as ++ bs) := by
  rw [Balanced, openBehind_append, h, Option.bind_some, h']

theorem Balanced.inParens (h : Balanced as) : Balanced (inParens as) := by
  show openBehind 1 (as ++ [')']) = some 0
  rw [openBehind_append, h.openBehind_eq]
  rfl

/-- A balanced text does not end inside a parenthesis. -/
theorem Balanced.not_open (h : Balanced (before ++ '(' :: as)) {count : Nat}
    (has : openBehind 0 as = some count) : False := by
  rw [Balanced, openBehind_append] at h
  obtain ⟨start, -, h⟩ := Option.bind_eq_some_iff.mp h
  have hcount := openBehind_add has (start + 1)
  rw [openBehind, Nat.zero_add] at *
  rw [hcount] at h
  have hzero := Option.some.inj h
  omega

/-- A matching pair lies in a balanced front of a text, or behind it. -/
theorem Encloses.append_cases (hfront : Balanced front)
    (h : Encloses (front ++ behind) before inside after) :
    (∃ rest, Encloses front before inside rest ∧ after = rest ++ behind) ∨
      ∃ rest, before = front ++ rest ∧ Encloses behind rest inside after := by
  obtain ⟨heq, hinside⟩ := h
  rcases List.append_eq_append_iff.mp heq with ⟨rest, hbefore, hbehind⟩ | ⟨rest, rfl, hrest⟩
  · exact .inr ⟨rest, hbefore, hbehind, hinside⟩
  · cases rest with
    | nil => exact .inr ⟨[], by simp, hrest.symm, hinside⟩
    | cons c rest =>
      rw [List.cons_append, List.cons.injEq] at hrest
      obtain ⟨rfl, hrest⟩ := hrest
      rcases List.append_eq_append_iff.mp hrest with ⟨tail, rfl, htail⟩ | ⟨tail, rfl, -⟩
      · cases tail with
        -- The front would end in front of the closing parenthesis.
        | nil =>
          rw [List.append_nil] at hfront
          exact (hfront.not_open hinside).elim
        | cons d tail =>
          obtain ⟨rfl, rfl⟩ := List.cons_eq_cons.mp htail
          exact .inl ⟨tail, ⟨by simp, hinside⟩, rfl⟩
      -- The front would end inside the pair.
      · rw [Balanced, openBehind_append] at hinside
        obtain ⟨count, hcount, -⟩ := Option.bind_eq_some_iff.mp hinside
        exact (hfront.not_open hcount).elim

end MipsAssembly
