import MipsAssembly.Proofs.Json.Document

/-!
# Walking over documents

Lists, objects and records are walked part by part.  A walk that comes to its end has read every
part, and every name of a field.

## Main definitions

- `Document.readField` — read a field by its name and its value.
- `Document.value_array_eq_ok_iff`, `Document.value_object_eq_ok_iff` — the values of lists and
  objects.
- `Document.skip_ofJson` — values that are not asked for.
- `Document.takeField` — take a field of a record.
- `Document.fields?` — the fields of a record that is closed.
- `Document.foldRecord_eq_ok_iff` — records whose fields are taken one by one.
-/

namespace MipsAssembly

namespace Document

variable {α σ : Type} {d : Document} {room : Nat}

/-! ### Values -/

/-- Read a field by its name and its value. -/
def readField (read : Document → Except JsonFault α) (field : Field) :
    Except JsonFault (String × α) := do
  let key ← field.1
  let value ← read field.2
  return (key, value)

theorem readField_eq_ok_iff {read : Document → Except JsonFault α} {field : Field} {name : String}
    {a : α} : readField read field = .ok (name, a) ↔ field.1 = .ok name ∧ read field.2 = .ok a := by
  obtain ⟨key | key, d⟩ := field
  · exact ⟨fun h => (by cases h), fun h => (by cases h.1)⟩
  · simp only [readField]
    cases read d with
    | error f => exact ⟨fun h => (by cases h), fun h => (by cases h.2)⟩
    | ok b =>
      show Except.ok (key, b) = .ok (name, a) ↔ _
      simp

theorem asFields_object (read : Document → Except JsonFault α) (fields : List Field)
    (fault : Option JsonFault) : (object fields fault).asFields read =
      fields.mapM (readField read) >>= fun fields => closeWith fault fields :=
  rfl

theorem itemValues_eq_mapM (room : Nat) (items : List Document) :
    itemValues room items = items.mapM (value room) := by
  induction items with
  | nil => rfl
  | cons item items ih => rw [itemValues, ih, List.mapM_cons]

theorem fieldValues_eq_mapM (room : Nat) (fields : List Field) :
    fieldValues room fields = fields.mapM (readField (value room)) := by
  induction fields with
  | nil => rfl
  | cons field fields ih =>
    rw [fieldValues, ih, List.mapM_cons]
    obtain ⟨key | key, field⟩ := field
    · rfl
    · simp only [readField]
      cases value room field <;> rfl

theorem value_array (hroom : room ≠ 0) (items : List Document) (fault : Option JsonFault) :
    (array items fault).value room = items.mapM (value (room - 1)) >>= fun items =>
      closeWith fault (.array items) := by
  rw [value, if_neg hroom, itemValues_eq_mapM]

theorem value_object (hroom : room ≠ 0) (fields : List Field) (fault : Option JsonFault) :
    (object fields fault).value room = fields.mapM (readField (value (room - 1))) >>= fun fields =>
      closeWith fault (.object fields) := by
  rw [value, if_neg hroom, fieldValues_eq_mapM]

theorem closeWith_eq_ok_iff {fault : Option JsonFault} {answer a : α} :
    closeWith fault answer = .ok a ↔ fault = none ∧ answer = a := by
  cases fault <;> simp [closeWith]

theorem asList_array_eq_ok_iff {read : Document → Except JsonFault α} {items : List Document}
    {fault : Option JsonFault} {as : List α} :
    (array items fault).asList read = .ok as ↔ fault = none ∧ items.mapM read = .ok as := by
  constructor
  · intro h
    obtain ⟨bs, hbs, hclose⟩ := exists_of_bind_eq_ok h
    obtain ⟨rfl, rfl⟩ := closeWith_eq_ok_iff.mp hclose
    exact ⟨rfl, hbs⟩
  · rintro ⟨rfl, hread⟩
    exact bind_eq_ok hread rfl

theorem value_array_eq_ok_iff {items : List Document} {fault : Option JsonFault} {v : JsonValue} :
    (array items fault).value room = .ok v ↔ room ≠ 0 ∧ fault = none ∧
      ∃ vs, items.mapM (value (room - 1)) = .ok vs ∧ .array vs = v := by
  by_cases hroom : room = 0
  · subst hroom
    exact ⟨fun h => (by cases h), fun h => absurd rfl h.1⟩
  · rw [value_array hroom]
    constructor
    · intro h
      obtain ⟨vs, hvs, hclose⟩ := exists_of_bind_eq_ok h
      obtain ⟨hfault, hv⟩ := closeWith_eq_ok_iff.mp hclose
      exact ⟨hroom, hfault, vs, hvs, hv⟩
    · rintro ⟨-, rfl, vs, hvs, rfl⟩
      rw [hvs]
      rfl

theorem value_object_eq_ok_iff {fields : List Field} {fault : Option JsonFault} {v : JsonValue} :
    (object fields fault).value room = .ok v ↔ room ≠ 0 ∧ fault = none ∧
      ∃ vs, fields.mapM (readField (value (room - 1))) = .ok vs ∧ .object vs = v := by
  by_cases hroom : room = 0
  · subst hroom
    exact ⟨fun h => (by cases h), fun h => absurd rfl h.1⟩
  · rw [value_object hroom]
    constructor
    · intro h
      obtain ⟨vs, hvs, hclose⟩ := exists_of_bind_eq_ok h
      obtain ⟨hfault, hv⟩ := closeWith_eq_ok_iff.mp hclose
      exact ⟨hroom, hfault, vs, hvs, hv⟩
    · rintro ⟨-, rfl, vs, hvs, rfl⟩
      rw [hvs]
      rfl

theorem value_eq_text_iff {content : String} :
    d.value room = .ok (.text content) ↔ d = text (.ok content) := by
  constructor
  · intro h
    cases d with
    | text s =>
      obtain ⟨content', rfl, hcontent⟩ := exists_of_map_eq_ok h
      rw [JsonValue.text.inj hcontent]
    | word w =>
      obtain ⟨w, -, hw⟩ := exists_of_map_eq_ok h
      cases w <;> cases hw
    | number n =>
      obtain ⟨n, -, hn⟩ := exists_of_map_eq_ok h
      cases hn
    | array items fault =>
      obtain ⟨-, -, vs, -, hv⟩ := value_array_eq_ok_iff.mp h
      cases hv
    | object fields fault =>
      obtain ⟨-, -, vs, -, hv⟩ := value_object_eq_ok_iff.mp h
      cases hv
    | missing f => cases h
  · rintro rfl
    rfl

theorem asText_eq_ok_iff {content : String} : d.asText = .ok content ↔ d = text (.ok content) := by
  constructor
  · intro h
    unfold asText at h
    split at h
    · exact congrArg (text ∘ Except.ok) (Except.ok.inj h)
    · cases h
  · rintro rfl
    rfl

/-! ### Values that are not asked for -/

theorem skipItems_ofItems {items : List JsonValue}
    (h : ∀ item ∈ items, (ofJson item).skip = .ok ()) : skipItems (ofItems items) = .ok () := by
  induction items with
  | nil => rfl
  | cons item items ih =>
    obtain ⟨hitem, hitems⟩ := List.forall_mem_cons.mp h
    rw [ofItems, skipItems, hitem]
    exact ih hitems

theorem skipFields_ofFields {fields : List (String × JsonValue)}
    (h : ∀ field ∈ fields, (ofJson field.2).skip = .ok ()) :
    skipFields (ofFields fields) = .ok () := by
  induction fields with
  | nil => rfl
  | cons field fields ih =>
    obtain ⟨hfield, hfields⟩ := List.forall_mem_cons.mp h
    rw [ofFields, skipFields, hfield]
    exact ih hfields

/-- Nothing is wrong with a value that is not asked for. -/
theorem skip_ofJson (value : JsonValue) : (ofJson value).skip = .ok () := by
  induction value using JsonValue.induction with
  | null | bool | number | text => rfl
  | array items ih =>
    rw [ofJson, skip, skipItems_ofItems ih]
    rfl
  | object fields ih =>
    rw [ofJson, skip, skipFields_ofFields ih]
    rfl

theorem skip_bind_eq_ok_iff {a b : α} :
    (d.skip >>= fun _ => .ok a) = .ok b ↔ d.skip = .ok () ∧ b = a := by
  cases d.skip with
  | error f => exact ⟨fun h => (by cases h), fun h => (by cases h.1)⟩
  | ok => exact ⟨fun h => ⟨rfl, (Except.ok.inj h).symm⟩, fun h => congrArg _ h.2.symm⟩

/-! ### Records -/

/-- Take a field of a record by its name and its value. -/
def takeField (take : σ → String → Document → Except JsonFault σ) (parts : σ) (field : Field) :
    Except JsonFault σ := do
  take parts (← field.1) field.2

theorem takeField_eq_ok_iff {take : σ → String → Document → Except JsonFault σ} {parts next : σ}
    {field : Field} : takeField take parts field = .ok next ↔
      ∃ name, field.1 = .ok name ∧ take parts name field.2 = .ok next := by
  obtain ⟨key | key, d⟩ := field
  · exact ⟨fun h => (by cases h), fun ⟨_, h, _⟩ => (by cases h)⟩
  · exact ⟨fun h => ⟨key, rfl, h⟩, fun ⟨_, hkey, h⟩ => Except.ok.inj hkey ▸ h⟩

theorem foldFields_eq_ok_iff {take : σ → String → Document → Except JsonFault σ}
    {start result : σ} {fields : List Field} {fault : Option JsonFault} :
    foldFields take start fields fault = .ok result ↔
      fault = none ∧ fields.foldlM (takeField take) start = .ok result := by
  constructor
  · intro h
    obtain ⟨parts, hparts, hclose⟩ := exists_of_bind_eq_ok h
    obtain ⟨rfl, rfl⟩ := closeWith_eq_ok_iff.mp hclose
    exact ⟨rfl, hparts⟩
  · rintro ⟨rfl, hfields⟩
    show (fields.foldlM (takeField take) start >>= _) = _
    rw [hfields]
    rfl

/-- The fields of a record that is closed. -/
def fields? (names : List String) : Document → Option (List Field)
  | object fields none => some fields
  | array items none => if items.length ≤ names.length then some (named names items) else none
  | _ => none

theorem fields?_array_eq_some_iff {names : List String} {items : List Document}
    {fields : List Field} : (array items none).fields? names = some fields ↔
      items.length ≤ names.length ∧ named names items = fields := by
  rw [fields?]
  split <;> simp_all

/-- Records that are closed are read, and all of their fields are taken. -/
theorem foldRecord_eq_ok_iff {names : List String}
    {take : σ → String → Document → Except JsonFault σ} {start result : σ} :
    d.foldRecord names take start = .ok result ↔
      ∃ fields, d.fields? names = some fields ∧
        fields.foldlM (takeField take) start = .ok result := by
  cases d with
  | object fields fault =>
    rw [foldRecord, foldFields_eq_ok_iff]
    cases fault <;> simp [fields?]
  | array items fault =>
    rw [foldRecord, foldFields_eq_ok_iff]
    -- What stands behind the value of the last name is in the place of the closing bracket.
    by_cases hlength : names.length < items.length
    · cases fault <;> simp [fields?, hlength]
    · cases fault <;> simp [fields?, hlength, Nat.le_of_not_lt hlength]
  | word | number | text | missing => exact ⟨fun h => (by cases h), fun ⟨_, h, _⟩ => (by cases h)⟩

end Document

end MipsAssembly
