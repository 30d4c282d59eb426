import MipsAssembly.Proofs.Json.Document

/-!
# Documents that are nested too deep

A document is walked only as deep as there is room.  Whatever lies in front of the first list or
object without room is walked without a fault, so the answer is the fault of this one, and it is
the same fault wherever it lies.

## Main definitions

- `Document.value_ofJson_of_lt` — a value that is nested too deep.
- `Document.tagged_ofJson_of_lt` — a record with a field that is nested too deep.
- `Document.asList_ofJson_eq_error`, `Document.asFields_ofJson_eq_error` — lists and objects with
  parts that are refused.
-/

namespace MipsAssembly

namespace JsonValue

/-- A list is nested too deep by one of its items. -/
theorem lt_nesting_array_iff {items : List JsonValue} {room : Nat} :
    room + 1 < (array items).nesting ↔ ∃ item ∈ items, room < item.nesting := by
  rw [← Nat.not_le, nesting_array_le_iff]
  simp

/-- An object is nested too deep by one of its fields. -/
theorem lt_nesting_object_iff {fields : List (String × JsonValue)} {room : Nat} :
    room + 1 < (object fields).nesting ↔ ∃ field ∈ fields, room < field.2.nesting := by
  rw [← Nat.not_le, nesting_object_le_iff]
  simp

end JsonValue

namespace Document

variable {room : Nat}

theorem itemValues_ofItems_of_lt {items : List JsonValue}
    (h : ∀ item ∈ items, room < item.nesting → (ofJson item).value room = .error .malformed)
    (hdeep : ∃ item ∈ items, room < item.nesting) :
    itemValues room (ofItems items) = .error .malformed := by
  induction items with
  | nil => simp at hdeep
  | cons item items ih =>
    obtain ⟨hitem, hitems⟩ := List.forall_mem_cons.mp h
    rw [ofItems, itemValues]
    by_cases hroom : room < item.nesting
    · rw [hitem hroom]
      rfl
    · have hrest : ∃ item ∈ items, room < item.nesting := by simpa [hroom] using hdeep
      rw [value_ofJson (Nat.le_of_not_lt hroom), ih hitems hrest]
      rfl

theorem fieldValues_ofFields_of_lt {fields : List (String × JsonValue)}
    (h : ∀ field ∈ fields, room < field.2.nesting →
      (ofJson field.2).value room = .error .malformed)
    (hdeep : ∃ field ∈ fields, room < field.2.nesting) :
    fieldValues room (ofFields fields) = .error .malformed := by
  induction fields with
  | nil => simp at hdeep
  | cons field fields ih =>
    obtain ⟨key, value⟩ := field
    obtain ⟨hvalue, hfields⟩ := List.forall_mem_cons.mp h
    rw [ofFields, fieldValues]
    by_cases hroom : room < value.nesting
    · rw [hvalue hroom]
      rfl
    · have hrest : ∃ field ∈ fields, room < field.2.nesting := by simpa [hroom] using hdeep
      rw [value_ofJson (Nat.le_of_not_lt hroom), ih hfields hrest]
      rfl

/-- A value that is nested too deep is refused. -/
theorem value_ofJson_of_lt {value : JsonValue} (h : room < value.nesting) :
    (ofJson value).value room = .error .malformed := by
  induction value using JsonValue.induction generalizing room with
  | null | bool value | number value | text content => exact absurd h (Nat.not_lt_zero room)
  | array items ih =>
    cases room with
    | zero => rfl
    | succ room =>
      have hdeep := JsonValue.lt_nesting_array_iff.mp h
      rw [ofJson, Document.value, if_neg (Nat.succ_ne_zero room), Nat.add_sub_cancel,
        itemValues_ofItems_of_lt (fun item hitem => ih item hitem) hdeep]
      rfl
  | object fields ih =>
    cases room with
    | zero => rfl
    | succ room =>
      have hdeep := JsonValue.lt_nesting_object_iff.mp h
      rw [ofJson, Document.value, if_neg (Nat.succ_ne_zero room), Nat.add_sub_cancel,
        fieldValues_ofFields_of_lt (fun field hfield => ih field hfield) hdeep]
      rfl

theorem eq_of_value_ofJson {value v : JsonValue} (h : (ofJson value).value room = .ok v) :
    v = value := by
  by_cases hroom : value.nesting ≤ room
  · rw [value_ofJson hroom] at h
    exact (Except.ok.inj h).symm
  · rw [value_ofJson_of_lt (Nat.lt_of_not_le hroom)] at h
    cases h

theorem foldlM_take_of_lt {kinds : JsonRecord.Kinds} {tag : String}
    {fields before : List (String × JsonValue)} (hnames : ∀ field ∈ fields, field.1 ≠ "type")
    (hdeep : ∃ field ∈ fields, room < field.2.nesting) :
    fields.foldlM (fun parts field => Tagged.take kinds room parts field.1 (ofJson field.2))
      ⟨some tag, before⟩ = .error .malformed := by
  induction fields generalizing before with
  | nil => simp at hdeep
  | cons field fields ih =>
    obtain ⟨hname, hnames⟩ := List.forall_mem_cons.mp hnames
    by_cases hroom : room < field.2.nesting
    · rw [List.foldlM_cons, Tagged.take, if_neg hname, value_ofJson_of_lt hroom]
      rfl
    · have htake : Tagged.take kinds room ⟨some tag, before⟩ field.1 (ofJson field.2) =
          .ok ⟨some tag, before ++ [field]⟩ := by
        rw [Tagged.take, if_neg hname, value_ofJson (Nat.le_of_not_lt hroom)]
        rfl
      rw [foldlM_field_cons htake]
      exact ih hnames (by simpa [hroom] using hdeep)

/-- A record with its tag in front is refused for a field that is nested too deep. -/
theorem tagged_ofJson_of_lt {kinds : JsonRecord.Kinds} {tag : String} {names : List String}
    {fields : List (String × JsonValue)} (htag : kinds.lookup tag = some names)
    (hnames : ∀ field ∈ fields, field.1 ≠ "type")
    (hdeep : ∃ field ∈ fields, room < field.2.nesting) :
    (ofJson (.object (("type", .text tag) :: fields))).tagged kinds room = .error .malformed := by
  rw [ofJson, tagged, foldFields_ofFields, foldlM_field_cons (take_tag htag room),
    foldlM_take_of_lt hnames hdeep]
  rfl

variable {α β : Type} {toJson : α → JsonValue} {read : Document → Except JsonFault β} {f : α → β}
  {e : JsonFault}

/-- A list is refused for the first of its items that is. -/
theorem asList_ofJson_eq_error {as : List α}
    (h : ∀ a ∈ as, read (ofJson (toJson a)) = .ok (f a) ∨ read (ofJson (toJson a)) = .error e)
    (hrefused : ∃ a ∈ as, read (ofJson (toJson a)) = .error e) :
    (ofJson (.array (as.map toJson))).asList read = .error e := by
  have hitems : (as.map (ofJson ∘ toJson)).mapM read = .error e := mapM_map_eq_error h hrefused
  rw [ofJson, asList, ofItems_eq_map, List.map_map, hitems]
  rfl

/-- An object is refused for the first of its fields that is. -/
theorem asFields_ofJson_eq_error {entries : List (String × α)}
    (h : ∀ entry ∈ entries, read (ofJson (toJson entry.2)) = .ok (f entry.2) ∨
      read (ofJson (toJson entry.2)) = .error e)
    (hrefused : ∃ entry ∈ entries, read (ofJson (toJson entry.2)) = .error e) :
    (ofJson (.object (entries.map fun (key, a) => (key, toJson a)))).asFields read =
      .error e := by
  have hfield {entry : String × α} {result : Except JsonFault β}
      (hread : read (ofJson (toJson entry.2)) = result) :
      (do let key ← (Except.ok entry.1 : Except JsonFault String)
          let field ← read (ofJson (toJson entry.2))
          return (key, field)) = result.map ((entry.1, ·)) := by
    rw [hread]
    cases result <;> rfl
  rw [ofJson, asFields, ofFields_eq_map, List.map_map, mapM_map_eq_error]
  · rfl
  · exact fun entry hentry => (h entry hentry).imp hfield hfield
  · obtain ⟨entry, hentry, hread⟩ := hrefused
    exact ⟨entry, hentry, hfield hread⟩

end Document

end MipsAssembly
