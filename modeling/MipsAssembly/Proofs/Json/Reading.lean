import Mathlib.Data.List.Forall2
import MipsAssembly.Proofs.Json.Document

/-!
# What written values are read as

A value that is written is read as a document, which is the document of the value if JSON texts can
tell all of its numbers.  A natural number that is too great for that is read as a floating-point
number or not at all, but it is read, and so are the objects around it.

## Main definitions

- `Document.IsReadAs` — a written value is read as a document wherever a value comes next.
- `Document.isReadAs_natural` — natural numbers of any size.
- `Document.IsReadAs.object` — objects of values that are read.
-/

namespace MipsAssembly

namespace Document

open JsonNumeral JsonToken

/-- A written value is read as a document, wherever a value comes next and whatever follows that
would not continue a number. -/
def IsReadAs (value : JsonValue) (d : Document) : Prop :=
  ∀ cs stack slot level, Stops isNumeralChar cs → Awaits stack slot →
    read stack slot (cut 0 (value.writeBefore cs level)) = (complete d stack).resume (cut 0 cs)

variable {value : JsonValue} {d : Document} {cs : List Char} {stack : List Container} {slot : Slot}

theorem isReadAs_ofJson (h : value.NumbersFit) : IsReadAs value (ofJson value) := by
  intro cs stack slot level hstop hawaits
  rw [(spells_writeBefore h level hstop (.done cs)).cut_eq, List.append_nil,
    read_tokens value stack slot (cut 0 cs) hawaits]

/-- The document of the digits of a natural number. -/
def ofNatural (n : Nat) : Document :=
  number (ofWritten false (.ofNat n)).number

theorem isReadAs_natural (n : Nat) : IsReadAs (.number (.integer n)) (ofNatural n) := by
  intro cs stack slot level hstop hawaits
  have htext : JsonValue.writeNumber (.integer n) =
      signText false ++ (WrittenNumeral.ofNat n).numeral.spelling := by
    rw [WrittenNumeral.spelling_ofNat]
    rfl
  have hcut : cut 0 (JsonValue.writeNumber (.integer n) ++ cs) =
      .number (ofWritten false (.ofNat n)).number :: cut 0 cs := by
    rw [htext]
    exact cut_numeral false (WrittenNumeral.zeroAlone_ofNat n) hstop
  show read stack slot (cut 0 (JsonValue.writeNumber (.integer n) ++ cs)) = _
  rw [hcut]
  exact read_of_complete hawaits (if_pos hawaits.wantsValue)

/-- Only a natural number that fits 64 bits without a sign is read as one. -/
theorem lt_of_asNatural_ofNatural {bound n m : Nat} (h : (ofNatural n).asNatural bound = .ok m) :
    n < 2 * integerBound := by
  by_contra hlarge
  have hvalue : ¬ Fits false (Numeral.value 10 (Numeral.decimal n)) := by
    rwa [Numeral.value_decimal]
  have hnumber : (ofWritten false (.ofNat n)).number =
      finite (.ofDecimal false (Numeral.value 10 (Numeral.decimal n)) 0) :=
    number_of_not_fits hvalue
  rw [ofNatural, hnumber, finite] at h
  split at h <;> cases h

/-! ## Objects -/

theorem cut_newLine (level : Nat) (cs : List Char) :
    cut 0 (JsonValue.newLine level ++ cs) = cut 0 cs :=
  (Spells.newLine level (.done cs)).cut_eq

/-- The name of a field is read, with the colon behind it. -/
theorem read_name (hslot : slot = .first ∨ slot = .key) (before : List Field) (key : String)
    (level : Nat) (cs : List Char) :
    read (.object before none :: stack) slot (cut 0
        (JsonValue.newLine level ++ JsonValue.writeText key.toList ++ ':' :: ' ' :: cs)) =
      read (.object before (some (.ok key)) :: stack) .value (cut 0 cs) := by
  have hkey : next (.object before none :: stack) slot (.text (.ok key)) =
      .go (.object before (some (.ok key)) :: stack) .colon := by
    rcases hslot with rfl | rfl <;> rfl
  have hspells : Spells (JsonValue.writeText key.toList ++ ':' :: ' ' :: cs)
      [.text (.ok key), .colon] cs := .text key (.punctuation rfl (.blank rfl (.done cs)))
  rw [List.append_assoc, cut_newLine, hspells.cut_eq, List.cons_append, read_of_go hkey,
    List.cons_append, read_of_go rfl, List.nil_append]

/-- A field is read as its name and a document. -/
def FieldIsReadAs (field : String × JsonValue) (part : Field) : Prop :=
  part.1 = .ok field.1 ∧ IsReadAs field.2 part.2

theorem read_writeFields {fields : List (String × JsonValue)} {parts : List Field}
    (h : List.Forall₂ FieldIsReadAs fields parts) (hne : fields ≠ [])
    (hslot : slot = .first ∨ slot = .key) (level : Nat) (hstop : Stops isNumeralChar cs)
    (before : List Field) :
    read (.object before none :: stack) slot (cut 0 (JsonValue.writeFields cs level fields)) =
      read (.object (before ++ parts) none :: stack) .separator (cut 0 cs) := by
  induction h generalizing before slot with
  | nil => exact absurd rfl hne
  | @cons field part fields parts hfield hfields ih =>
    obtain ⟨key, value⟩ := field
    obtain ⟨part, d⟩ := part
    obtain ⟨rfl, hvalue⟩ : part = .ok key ∧ IsReadAs value d := hfield
    have hread {cs : List Char} (hstop : Stops isNumeralChar cs) :
        read (.object before (some (.ok key)) :: stack) .value
            (cut 0 (value.writeBefore cs level)) =
          read (.object (before ++ [(.ok key, d)]) none :: stack) .separator (cut 0 cs) :=
      hvalue _ _ _ level hstop (.field before (.ok key) stack)
    cases hfields with
    | nil => exact (read_name hslot before key level _).trans (hread hstop)
    | @cons nextField nextPart fields parts hnext hfields =>
      have hcomma (cs : List Char) : cut 0 (',' :: cs) = .comma :: cut 0 cs :=
        cut_punctuation rfl rfl cs
      have hrest := ih (List.cons_ne_nil _ _) (.inr rfl) (before ++ [(.ok key, d)])
      rw [List.append_assoc] at hrest
      refine (read_name hslot before key level _).trans ?_
      rw [hread (stops_comma _), hcomma, read_of_go rfl]
      exact hrest

/-- An object is read field by field. -/
theorem IsReadAs.object {fields : List (String × JsonValue)} {parts : List Field}
    (h : List.Forall₂ FieldIsReadAs fields parts) :
    IsReadAs (.object fields) (object parts none) := by
  intro cs stack slot level hstop hawaits
  have hopen : next stack slot .openBrace = .go (.object [] none :: stack) .first :=
    if_pos hawaits.wantsValue
  have hbrace (cs : List Char) : cut 0 ('\x7b' :: cs) = .openBrace :: cut 0 cs :=
    cut_punctuation rfl rfl cs
  have hclose (cs : List Char) : cut 0 ('\x7d' :: cs) = .closeBrace :: cut 0 cs :=
    cut_punctuation rfl rfl cs
  cases h with
  | nil =>
    show read stack slot (cut 0 ('\x7b' :: '\x7d' :: cs)) = _
    rw [hbrace, read_of_go hopen, hclose]
    exact read_of_complete hawaits rfl
  | @cons field part fields parts hfield hfields =>
    show read stack slot (cut 0 ('\x7b' :: JsonValue.writeFields
      (JsonValue.newLine level ++ '\x7d' :: cs) (level + 1) (field :: fields))) = _
    rw [hbrace, read_of_go hopen, read_writeFields (.cons hfield hfields) (List.cons_ne_nil _ _)
      (.inl rfl) (level + 1) (stops_newLine level _), cut_newLine, hclose]
    exact read_of_complete hawaits rfl

/-- Fields are read one by one. -/
theorem forall₂_fieldIsReadAs {α : Type} {entries : List (String × α)} (toJson : α → JsonValue)
    (read : α → Document) (h : ∀ entry ∈ entries, IsReadAs (toJson entry.2) (read entry.2)) :
    List.Forall₂ FieldIsReadAs (entries.map fun (key, a) => (key, toJson a))
      (entries.map fun (key, a) => (.ok key, read a)) := by
  rw [List.forall₂_map_left_iff, List.forall₂_map_right_iff, List.forall₂_same]
  exact fun entry hentry => ⟨rfl, h entry hentry⟩

/-- The text of a value is read as the same document. -/
theorem IsReadAs.ofText_write (h : IsReadAs value d) : ofText value.write = (d, false) := by
  have hread := h [] [] .value 0 (Stops.nil isNumeralChar) .top
  rw [ofText, jsonTokens, JsonValue.write, String.toList_ofList, hread]
  rfl

end Document

end MipsAssembly
