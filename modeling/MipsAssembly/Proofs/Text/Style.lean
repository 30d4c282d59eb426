import MipsAssembly.Proofs.Numeral
import MipsAssembly.Text.Padding
import MipsAssembly.Text.Style

/-!
# What is seen of styled text

The control sequences of styles are not seen, and they break no line.  Nor does padding, unless it
is done with line feeds.

## Main definitions

- `visible` — a text without its control sequences.
- `Style.visible_paint_append` — of painted text the text is seen.
- `Style.lineFeed_mem_paint` — painting breaks no line.
- `mem_padLeft`, `mem_padRight` — the characters of a padded text.
- `not_mem_padLeft_decimal` — a padded number has digits and padding only.
-/

namespace MipsAssembly

/-- A text without control sequences, which may have started before it. -/
def visibleFrom : Bool → List Char → List Char
  | _, [] => []
  | true, c :: rest => visibleFrom (c != 'm') rest
  | false, c :: rest => if c = '\x1b' then visibleFrom true rest else c :: visibleFrom false rest

/-- What is seen of a text: all but its control sequences. -/
def visible (text : List Char) : List Char :=
  visibleFrom false text

variable {text : List Char}

@[simp] theorem visible_nil : visible [] = [] :=
  rfl

theorem visible_append (h : '\x1b' ∉ text) (rest : List Char) :
    visible (text ++ rest) = text ++ visible rest := by
  induction text with
  | nil => rfl
  | cons c text ih =>
    obtain ⟨hc, htext⟩ := not_or.mp (mt List.mem_cons.mpr h)
    rw [List.cons_append, visible, visibleFrom, if_neg (Ne.symm hc), ← visible, ih htext,
      List.cons_append]

theorem visible_of_not_mem (h : '\x1b' ∉ text) : visible text = text := by
  have hall := visible_append h []
  rwa [visible_nil, List.append_nil] at hall

namespace Style

@[simp] theorem visible_on_append (style : Style) (rest : List Char) :
    visible (style.on ++ rest) = visible rest := by
  cases style <;> rfl

@[simp] theorem visible_off_append (style : Style) (rest : List Char) :
    visible (style.off ++ rest) = visible rest := by
  cases style <;> rfl

@[simp] theorem visible_paint_append (style : Style) (h : '\x1b' ∉ text) (rest : List Char) :
    visible (style.paint text ++ rest) = text ++ visible rest := by
  rw [paint, List.append_assoc, List.append_assoc, visible_on_append, visible_append h,
    visible_off_append]

@[simp] theorem lineFeed_not_mem_on (style : Style) : '\n' ∉ style.on := by
  cases style <;> decide

@[simp] theorem lineFeed_not_mem_off (style : Style) : '\n' ∉ style.off := by
  cases style <;> decide

/-- Painting breaks no line. -/
@[simp] theorem lineFeed_mem_paint (style : Style) : '\n' ∈ style.paint text ↔ '\n' ∈ text := by
  simp [paint]

end Style

theorem mem_padLeft {width : Nat} {fill c : Char} (h : c ∈ padLeft width fill text) :
    c = fill ∨ c ∈ text :=
  (List.mem_append.mp h).imp_left List.eq_of_mem_replicate

theorem mem_padRight {width : Nat} {fill c : Char} (h : c ∈ padRight width fill text) :
    c = fill ∨ c ∈ text :=
  (List.mem_append.mp h).symm.imp_left List.eq_of_mem_replicate

theorem not_mem_padLeft_decimal {width : Nat} {fill c : Char} (hfill : c ≠ fill)
    (hdigit : c.isDigit = false) (n : Nat) : c ∉ padLeft width fill (Numeral.decimal n) := by
  intro hmem
  rcases mem_padLeft hmem with rfl | hmem
  · exact hfill rfl
  · rw [Numeral.isDigit_of_mem_decimal n c hmem] at hdigit
    cases hdigit

end MipsAssembly
