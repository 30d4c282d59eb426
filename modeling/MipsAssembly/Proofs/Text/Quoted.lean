import MipsAssembly.Text.Quoted

/-!
# Texts between quotes

The characters between the quotes of a literal mean a text: a character stands for itself, and a
backslash with the character behind it stands for what the escape means.  A literal is read up to
the first quote behind such characters.  A text that is written between quotes means itself, and
it stays on its line.

## Main definitions

- `TextLiteral.Decodes` — what the characters between quotes mean.
- `TextLiteral.reading_go` — what reading a literal comes to.
- `TextLiteral.decodes_flatMap_writeChar` — a written text means itself.
- `TextLiteral.ne_lineEnd_of_mem_writeChar` — no line ends inside a literal.
-/

namespace MipsAssembly

namespace TextLiteral

/-- The characters between the quotes of a literal mean a text. -/
inductive Decodes : List Char → List Char → Prop where
  | nil : Decodes [] []
  -- A character that stands for itself.
  | plain {c : Char} {body content : List Char} :
    c ≠ '"' → c ≠ '\\' → Decodes body content → Decodes (c :: body) (c :: content)
  -- A backslash and the character behind it.
  | escape {e c : Char} {body content : List Char} :
    unescape? e = some c → Decodes body content → Decodes ('\\' :: e :: body) (c :: content)

theorem Decodes.go_append {body content : List Char} (h : Decodes body content) (seen : Nat)
    (rest : List Char) :
    read.go seen (body ++ '"' :: rest) = .ok (content, seen + body.length + 1) := by
  induction h generalizing seen with
  | nil => rfl
  | plain hquote hbackslash _ ih =>
    simp [read.go, hbackslash, ih, Except.map]
    omega
  | escape hescape _ ih =>
    simp [read.go, hescape, ih, Except.map]
    omega

/-- A literal is read up to the first quote behind characters that mean a text. -/
theorem Decodes.read_append {body content : List Char} (h : Decodes body content)
    (rest : List Char) : read (body ++ '"' :: rest) = .ok (content, body.length + 1) := by
  rw [read, h.go_append, Nat.zero_add]

/-- What reading a literal comes to after some characters: it stops behind the quote of
characters that mean a text, or at a backslash behind such characters that makes no escape, or it
finds no end. -/
inductive Reading (seen : Nat) : List Char → Except (Fault × Nat) (List Char × Nat) → Prop where
  | closed {body content rest : List Char} :
    Decodes body content →
    Reading seen (body ++ '"' :: rest) (.ok (content, seen + body.length + 1))
  | refused {body content rest : List Char} {c : Char} :
    Decodes body content →
    Reading seen (body ++ '\\' :: c :: rest) (.error (.invalidEscape c, seen + body.length + 1))
  | unterminated {cs : List Char} : Reading seen cs (.error (.unterminated, 0))

/-- More characters in front that mean one character. -/
theorem Reading.cons {seen : Nat} {front rest : List Char} {c : Char}
    {result : Except (Fault × Nat) (List Char × Nat)}
    (h : Reading (seen + front.length) rest result)
    (hfront : ∀ body content, Decodes body content → Decodes (front ++ body) (c :: content)) :
    Reading seen (front ++ rest) (result.map fun (text, length) => (c :: text, length)) := by
  cases h with
  | @closed body content rest hbody =>
    have hclosed : Reading seen (front ++ body ++ '"' :: rest)
        (.ok (c :: content, seen + (front ++ body).length + 1)) :=
      .closed (hfront body content hbody)
    rw [List.length_append, List.append_assoc, ← Nat.add_assoc] at hclosed
    exact hclosed
  | @refused body content rest bad hbody =>
    have hrefused : Reading seen (front ++ body ++ '\\' :: bad :: rest)
        (.error (.invalidEscape bad, seen + (front ++ body).length + 1)) :=
      .refused (hfront body content hbody)
    rw [List.length_append, List.append_assoc, ← Nat.add_assoc] at hrefused
    exact hrefused
  | unterminated => exact .unterminated

theorem reading_go (seen : Nat) (cs : List Char) : Reading seen cs (read.go seen cs) := by
  fun_induction read.go seen cs with
  | case1 | case3 => exact .unterminated
  | case2 seen rest =>
    show Reading seen ([] ++ '"' :: rest) _
    exact .closed .nil
  | case4 seen e rest hescape =>
    show Reading seen ([] ++ '\\' :: e :: rest) _
    exact .refused .nil
  | case5 seen e rest c hescape ih =>
    show Reading seen (['\\', e] ++ rest) _
    exact ih.cons fun _ _ => .escape hescape
  | case6 seen c rest hquote hend hbackslash ih =>
    have hplain : c ≠ '\\' := by
      rintro rfl
      cases rest with
      | nil => exact hend rfl rfl
      | cons e rest => exact hbackslash e rest rfl rfl
    show Reading seen ([c] ++ rest) _
    exact ih.cons fun _ _ => .plain hquote hplain

/-! ## Written literals -/

/-- One written character means itself, with or without a backslash. -/
theorem Decodes.writeChar_append {body content : List Char} (h : Decodes body content) (c : Char) :
    Decodes (writeChar c ++ body) (c :: content) := by
  unfold writeChar
  split
  · next e he => exact .escape (unescape?_of_escapeOf? he) h
  · next he =>
    refine .plain ?_ ?_ h
    · rintro rfl
      cases he
    · rintro rfl
      cases he

theorem decodes_flatMap_writeChar (text : List Char) : Decodes (text.flatMap writeChar) text := by
  induction text with
  | nil => exact .nil
  | cons c text ih => exact ih.writeChar_append c

/-- No escape is written with a character that ends lines. -/
theorem ne_lineEnd_of_escapeOf? {c e : Char} (h : escapeOf? c = some e) : e ≠ '\n' ∧ e ≠ '\r' := by
  unfold escapeOf? at h
  split at h <;> cases h <;> decide

/-- The characters that end lines are escaped. -/
theorem ne_lineEnd_of_mem_writeChar {c d : Char} (h : d ∈ writeChar c) : d ≠ '\n' ∧ d ≠ '\r' := by
  unfold writeChar at h
  split at h
  · next e he =>
    simp only [List.mem_cons, List.not_mem_nil, or_false] at h
    rcases h with rfl | rfl
    · decide
    · exact ne_lineEnd_of_escapeOf? he
  · next he =>
    obtain rfl : d = c := List.mem_singleton.mp h
    constructor
    · rintro rfl
      cases he
    · rintro rfl
      cases he

end TextLiteral

end MipsAssembly
