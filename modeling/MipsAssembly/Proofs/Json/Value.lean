import MipsAssembly.Proofs.Json.Number

/-!
# The shape of JSON values

Properties of JSON values are proved from those of the items of lists and the values of fields.

## Main definitions

- `JsonValue.induction` — induction over items and fields.
- `JsonValue.NumbersFit` — JSON texts can tell all numbers of a value.
- `JsonValue.nesting` — how many times lists and objects are nested in a value.
-/

namespace MipsAssembly

namespace JsonValue

/-- A property of all values follows from what it is for the items of a list and for the values
of the fields of an object. -/
@[elab_as_elim]
theorem induction {motive : JsonValue → Prop} (null : motive null)
    (bool : ∀ value, motive (bool value)) (number : ∀ value, motive (number value))
    (text : ∀ content, motive (text content))
    (array : ∀ items, (∀ item ∈ items, motive item) → motive (array items))
    (object : ∀ fields, (∀ field ∈ fields, motive field.2) → motive (object fields))
    (value : JsonValue) : motive value :=
  @JsonValue.rec motive (fun items => ∀ item ∈ items, motive item)
    (fun fields => ∀ field ∈ fields, motive field.2) (fun field => motive field.2)
    null bool number text array object
    (by simp) (fun _ _ hitem hitems => List.forall_mem_cons.mpr ⟨hitem, hitems⟩)
    (by simp) (fun _ _ hfield hfields => List.forall_mem_cons.mpr ⟨hfield, hfields⟩)
    (fun _ _ hvalue => hvalue) value

/-- JSON texts can tell all numbers of a value. -/
inductive NumbersFit : JsonValue → Prop where
  | null : NumbersFit null
  | bool (value : Bool) : NumbersFit (bool value)
  | number {value : Number} (h : value.InJson) : NumbersFit (number value)
  | text (content : String) : NumbersFit (text content)
  | array {items : List JsonValue} (h : ∀ item ∈ items, NumbersFit item) :
    NumbersFit (array items)
  | object {fields : List (String × JsonValue)} (h : ∀ field ∈ fields, NumbersFit field.2) :
    NumbersFit (object fields)

theorem numbersFit_array_iff {items : List JsonValue} :
    (array items).NumbersFit ↔ ∀ item ∈ items, item.NumbersFit :=
  ⟨fun h => by cases h; assumption, .array⟩

theorem numbersFit_object_iff {fields : List (String × JsonValue)} :
    (object fields).NumbersFit ↔ ∀ field ∈ fields, field.2.NumbersFit :=
  ⟨fun h => by cases h; assumption, .object⟩

mutual

/-- How many times lists and objects are nested in a value. -/
def nesting : JsonValue → Nat
  | null | bool _ | number _ | text _ => 0
  | array items => nestingOfItems items + 1
  | object fields => nestingOfFields fields + 1

def nestingOfItems : List JsonValue → Nat
  | [] => 0
  | item :: items => max item.nesting (nestingOfItems items)

def nestingOfFields : List (String × JsonValue) → Nat
  | [] => 0
  | (_, value) :: fields => max value.nesting (nestingOfFields fields)

end

@[simp] theorem nesting_text (content : String) : (text content).nesting = 0 :=
  rfl

theorem nestingOfItems_le_iff {items : List JsonValue} {room : Nat} :
    nestingOfItems items ≤ room ↔ ∀ item ∈ items, item.nesting ≤ room := by
  induction items with
  | nil => simp [nestingOfItems]
  | cons item items ih => rw [nestingOfItems, max_le_iff, ih, List.forall_mem_cons]

theorem nestingOfFields_le_iff {fields : List (String × JsonValue)} {room : Nat} :
    nestingOfFields fields ≤ room ↔ ∀ field ∈ fields, field.2.nesting ≤ room := by
  induction fields with
  | nil => simp [nestingOfFields]
  | cons field fields ih => rw [nestingOfFields, max_le_iff, ih, List.forall_mem_cons]

/-- The items of a list have one level less. -/
theorem nesting_array_le_iff {items : List JsonValue} {room : Nat} :
    (array items).nesting ≤ room + 1 ↔ ∀ item ∈ items, item.nesting ≤ room := by
  rw [nesting, Nat.add_le_add_iff_right, nestingOfItems_le_iff]

theorem nesting_object_le_iff {fields : List (String × JsonValue)} {room : Nat} :
    (object fields).nesting ≤ room + 1 ↔ ∀ field ∈ fields, field.2.nesting ≤ room := by
  rw [nesting, Nat.add_le_add_iff_right, nestingOfFields_le_iff]

end JsonValue

end MipsAssembly
