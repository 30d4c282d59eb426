import MipsAssembly.Json.Token
import MipsAssembly.Json.Writer

/-!
# Written JSON texts read back

Every character of a text is written as one part of a JSON text, and that part stands for the
character, whether it is escaped or not.  So a text between quotes is read as the same text,
whatever follows the closing quote.

## Main definitions

- `JsonText.parts_writeChar` — a written character is one part.
- `JsonText.read_flatMap_writeChar` — reading undoes writing.
-/

namespace MipsAssembly

namespace JsonText

/-- The four hexadecimal digits of a control character. -/
def controlDigits (code : Nat) : List Char :=
  ['0', '0', (code / 16).digitChar, (code % 16).digitChar]

theorem padLeft_smallHexadecimal :
    ∀ code < 0x20, padLeft 4 '0' (Numeral.smallHexadecimal code) = controlDigits code := by
  decide

theorem ofCode_controlDigits :
    ∀ code < 0x20, (controlDigits code).all isHexDigit = true ∧
      Part.ofCode (Numeral.value 16 (controlDigits code)) = .char (Char.ofNat code) := by
  decide

/-- A character is written as an escape of two characters, by the digits of its code, or as it
is. -/
theorem writeChar_cases (c : Char) : (∃ e, JsonValue.writeChar c = ['\\', e]) ∨
    (∃ code < 0x20, JsonValue.writeChar c = '\\' :: 'u' :: controlDigits code) ∨
    JsonValue.writeChar c = [c] := by
  unfold JsonValue.writeChar
  split
  case h_8 =>
    split
    · next hcontrol =>
      rw [padLeft_smallHexadecimal c.toNat hcontrol]
      exact .inr (.inl ⟨c.toNat, hcontrol, rfl⟩)
    · exact .inr (.inr rfl)
  all_goals exact .inl ⟨_, rfl⟩

/-- A character that is not escaped stands for itself. -/
theorem parts_cons_of_plain {c : Char} (hquote : c ≠ '"') (hbackslash : c ≠ '\\')
    (hcontrol : ¬ c.toNat < 0x20) (rest : List Char) :
    parts (c :: rest) = (.char c :: (parts rest).1, (parts rest).2.map (· + 1)) := by
  rw [parts.eq_def]
  split <;> simp_all

theorem parts_writeChar (c : Char) (rest : List Char) :
    parts (JsonValue.writeChar c ++ rest) =
      (.char c :: (parts rest).1, (parts rest).2.map (· + (JsonValue.writeChar c).length)) := by
  unfold JsonValue.writeChar
  split
  · rfl
  · rfl
  · rfl
  · rfl
  · rfl
  · rfl
  · rfl
  · next hquote hbackslash _ _ _ _ _ =>
    split
    · next hcontrol =>
      obtain ⟨hall, hcode⟩ := ofCode_controlDigits c.toNat hcontrol
      rw [Char.ofNat_toNat] at hcode
      rw [padLeft_smallHexadecimal c.toNat hcontrol, controlDigits]
      rw [controlDigits] at hall hcode
      simp only [List.cons_append, List.nil_append, parts, hall, hcode, if_true]
      rfl
    · next hcontrol => exact parts_cons_of_plain hquote hbackslash hcontrol rest

theorem parts_flatMap_writeChar (content rest : List Char) :
    parts (content.flatMap JsonValue.writeChar ++ '"' :: rest) =
      (content.map .char, .ok ((content.flatMap JsonValue.writeChar).length + 1)) := by
  induction content with
  | nil => rfl
  | cons c content ih =>
    rw [List.flatMap_cons, List.append_assoc, parts_writeChar, ih, List.length_append]
    simp only [List.map_cons, Except.map]
    congr 2
    omega

theorem join_map_char (content : List Char) :
    join none (content.map .char) = .ok content := by
  induction content with
  | nil => rfl
  | cons c content ih =>
    rw [List.map_cons, join, ih]
    rfl

/-- A written text is read up to its closing quote. -/
theorem read_flatMap_writeChar (content : String) (rest : List Char) :
    read (content.toList.flatMap JsonValue.writeChar ++ '"' :: rest) =
      (.ok content, .ok ((content.toList.flatMap JsonValue.writeChar).length + 1)) := by
  rw [read, parts_flatMap_writeChar]
  dsimp only
  rw [join_map_char, Except.map, String.ofList_toList]

end JsonText

end MipsAssembly
