import MipsAssembly.Json.Document

/-!
# Records in JSON

A record is an object of which some fields are known and the others mean nothing.  A known
field must not come twice.  The values of the known fields may also make up a list, in the order
of the fields and without their names.

A tagged record has a text in the field `type` that tells what kind of record it is.  The tag
may come behind other fields, so these are kept as JSON values until the object is closed.  In a
list it comes first.

## Main definitions

- `JsonRecord.required?`, `JsonRecord.optional?` — the value of a field.
- `JsonRecord.named?`, `JsonRecord.listed?` — the fields of a record that is a list.
- `Document.tagged` — the tag of a record and its other fields.
-/

namespace MipsAssembly

namespace JsonRecord

variable {α : Type}

/-- The values of the fields of a name. -/
def valuesOf (name : String) (fields : List (String × α)) : List α :=
  (fields.filter fun field => field.1 = name).map Prod.snd

/-- The value of a field that has to be there. -/
def required? (name : String) (fields : List (String × α)) : Option α :=
  match valuesOf name fields with
  | [value] => some value
  | _ => none

/-- The value of a field that may be absent. -/
def optional? (name : String) (fields : List (String × α)) : Option (Option α) :=
  match valuesOf name fields with
  | [] => some none
  | [value] => some (some value)
  | _ => none

/-- The fields of a record that is a list of their values.  The last ones may be absent. -/
def named? (names : List String) (values : List α) : Option (List (String × α)) :=
  if values.length ≤ names.length then some (names.zip values) else none

/-- The kinds of tagged records, and the names of the other fields of each kind. -/
abbrev Kinds := List (String × List String)

/-- The fields of a tagged record that is a list of its tag and the values of the other fields. -/
def listed? (kinds : Kinds) (tag? : α → Option String) : List α → Option (List (String × α))
  | [] => none
  | first :: values => do
    let names ← kinds.lookup (← tag? first)
    return ("type", first) :: (← named? names values)

end JsonRecord

def JsonValue.asText? : JsonValue → Option String
  | text content => some content
  | _ => none

/-- The name of a variant without fields: a text, or an object with this name alone that holds
nothing. -/
def JsonValue.variant? : JsonValue → Option String
  | text name => some name
  | object [(name, null)] | object [(name, object [])] => some name
  | _ => none

/-- What is read, unless it stands for nothing. -/
def orMismatched {α : Type} : Option α → Except JsonFault α
  | some answer => .ok answer
  | none => .error .mismatched

namespace Document

open JsonRecord

/-- The tag of a record, if it has been read, and the other fields so far. -/
structure Tagged where
  tag : Option String := none
  fields : List (String × JsonValue) := []

/-- Take a field of a tagged record.  The tag has to be one of the known ones. -/
def Tagged.take (kinds : Kinds) (room : Nat) (parts : Tagged) (key : String)
    (field : Document) : Except JsonFault Tagged :=
  if key = "type" then
    if parts.tag.isSome then .error .mismatched
    else do
      let tag ← field.asText
      let _ ← orMismatched (kinds.lookup tag)
      return { parts with tag := some tag }
  else do
    let value ← field.value room
    return { parts with fields := parts.fields ++ [(key, value)] }

/-- The tag of a record and its other fields, in which lists and objects may be nested so many
times. -/
def tagged (kinds : Kinds) (room : Nat) :
    Document → Except JsonFault (String × List (String × JsonValue))
  | object fields fault => do
    let parts ← foldFields (Tagged.take kinds room) {} fields fault
    return (← orMismatched parts.tag, parts.fields)
  | array [] fault => do
    closeWith fault ()
    .error .mismatched
  | array (first :: items) fault => do
    let tag ← first.asText
    let names ← orMismatched (kinds.lookup tag)
    let values ← (array items fault).asList (value room)
    return (tag, ← orMismatched (named? names values))
  | d => .error d.mismatch

end Document

end MipsAssembly
