import MipsAssembly.Json.Record
import MipsAssembly.Program

/-!
# Programs from JSON

A program is read from a JSON text in the order of the text, and the first thing that is wrong
decides.  Fields may come in any order, and fields that mean nothing are passed over.

Entries and switches are records with a tag.  Their other fields are read as JSON values up to
the end of the record before anything is made of them, so what is wrong inside an operand
shows only there.

Every record may be a list of the values of its fields.  Inside an entry, where all is read
already, an operand may be tagged by the number of its kind.

## Main definitions

- `Operand.ofJson?`, `Entry.ofFields?` — operands and entries of JSON values.
- `Program.ofDocument` — the program of a document.
- `importProgram` — the program of a JSON text.
-/

namespace MipsAssembly

/-- The number of a JSON value.  An integer that does not fit 64 bits with a sign is taken for
a floating-point number. -/
def Number.ofJson? : JsonValue → Option Number
  | .number (.integer i) =>
    some (if fits64 i then .integer i else .real (.ofDecimal (i < 0) i.natAbs 0))
  | .number (.real x) => some (.real x)
  | _ => none

namespace Operand

/-- A JSON value and the operand that it stands for, if it stands for one. -/
structure Reading where
  value : JsonValue
  operand? : Option Operand

/-- The kinds of operands. -/
def kinds : JsonRecord.Kinds :=
  [("Register", ["value", "kind"]), ("Number", ["kind", "value"]), ("Identifier", ["value"]),
    ("String", ["value"]), ("Binary", ["operator", "left", "right"]),
    ("Indexed", ["offset", "base"])]

/-- The kind of an operand, given by its name or its number. -/
def kindOf? : JsonValue → Option String
  | .text name => some name
  | .number (.integer i) => if 0 ≤ i then kinds[i.toNat]?.map Prod.fst else none
  | _ => none

def textField? (name : String) (fields : List (String × Reading)) : Option String :=
  (JsonRecord.required? name fields).bind (·.value.asText?)

def variantField? (name : String) (fields : List (String × Reading)) : Option String :=
  (JsonRecord.required? name fields).bind (·.value.variant?)

def operandField? (name : String) (fields : List (String × Reading)) : Option Operand :=
  (JsonRecord.required? name fields).bind (·.operand?)

/-- The operand that a record stands for. -/
def ofReadings? (fields : List (String × Reading)) : Option Operand := do
  match ← (JsonRecord.required? "type" fields).bind (kindOf? ·.value) with
  | "Register" =>
    let name ← textField? "value" fields
    let kind ← (variantField? "kind" fields).bind RegisterKind.ofName?
    return register name kind
  | "Number" =>
    let radix ← (variantField? "kind" fields).bind Radix.ofName?
    let value ← (JsonRecord.required? "value" fields).bind fun r => Number.ofJson? r.value
    return number radix value
  | "Identifier" => return identifier (← textField? "value" fields)
  | "String" => return text (← textField? "value" fields)
  | "Binary" =>
    let operator ← (variantField? "operator" fields).bind BinaryOperator.ofSymbol?
    return binary operator (← operandField? "left" fields) (← operandField? "right" fields)
  | "Indexed" =>
    let base ← operandField? "base" fields
    match ← JsonRecord.optional? "offset" fields with
    | none | some ⟨.null, _⟩ => return indirect base
    | some offset => return indexed (← offset.operand?) base
  | _ => none

mutual

/-- The operand that a JSON value stands for. -/
def ofJson? : JsonValue → Option Operand
  | .object fields => ofReadings? (fieldReadings fields)
  | .array items =>
    (JsonRecord.listed? kinds (kindOf? ·.value) (itemReadings items)).bind ofReadings?
  | _ => none

/-- The fields of a record with the operands that they stand for. -/
def fieldReadings : List (String × JsonValue) → List (String × Reading)
  | [] => []
  | (name, value) :: fields => (name, ⟨value, ofJson? value⟩) :: fieldReadings fields

/-- The items of a list with the operands that they stand for. -/
def itemReadings : List JsonValue → List Reading
  | [] => []
  | value :: items => ⟨value, ofJson? value⟩ :: itemReadings items

end

/-- The operands that a JSON value stands for. -/
def listOfJson? : JsonValue → Option (List Operand)
  | .array items => items.mapM ofJson?
  | _ => none

end Operand

/-- The value of a data directive that a JSON value stands for.  A list is taken for a single
operand only if it is none of operands. -/
def DataValue.ofJson? (value : JsonValue) : Option DataValue :=
  ((Operand.listOfJson? value).map list).or ((Operand.ofJson? value).map scalar)

/-- The instruction that the fields of a record stand for. -/
def Instruction.ofFields? (fields : List (String × JsonValue)) : Option Instruction := do
  let opcode ← (JsonRecord.required? "opcode" fields).bind (·.asText?)
  match ← JsonRecord.optional? "operands" fields with
  | none | some .null => return ⟨opcode, none⟩
  | some operands => return ⟨opcode, some (← Operand.listOfJson? operands)⟩

/-- The data directive that the fields of a record stand for. -/
def Data.ofFields? (fields : List (String × JsonValue)) : Option Data := do
  let name ← (JsonRecord.required? "mode" fields).bind (·.variant?)
  let value ← JsonRecord.required? "value" fields
  return ⟨← DataMode.ofName? name, ← DataValue.ofJson? value⟩

/-- The kinds of entries. -/
def Entry.kinds : JsonRecord.Kinds :=
  [("Instruction", ["opcode", "operands"]), ("Data", ["mode", "value"])]

/-- The entry that the fields of a record with a tag stand for. -/
def Entry.ofFields? (fields : List (String × JsonValue)) : (tag : String) → Option Entry
  | "Instruction" => (Instruction.ofFields? fields).map instruction
  | "Data" => (Data.ofFields? fields).map data
  | _ => none

/-- The only kind of switches. -/
def switchKinds : JsonRecord.Kinds :=
  [("Segment", ["value"])]

/-- The segment that the fields of a record with a tag switch to. -/
def switchOfFields? (fields : List (String × JsonValue)) (_tag : String) : Option String :=
  (JsonRecord.required? "value" fields).bind (·.asText?)

/-! ## Documents -/

/-- How many times lists and objects may be nested in a JSON text. -/
def maxNesting : Nat := 127

/-- The entry of a document, which is nested four times. -/
def Entry.ofDocument (d : Document) : Except JsonFault Entry := do
  let (tag, fields) ← d.tagged Entry.kinds (maxNesting - 5)
  orMismatched (Entry.ofFields? fields tag)

/-- The segment that a document switches to, which is nested twice. -/
def switchOfDocument (d : Document) : Except JsonFault String := do
  let (tag, fields) ← d.tagged switchKinds (maxNesting - 3)
  orMismatched (switchOfFields? fields tag)

/-- Read a field that has not been read before. -/
def readOnce {α : Type} (before : Option α) (read : Except JsonFault α) :
    Except JsonFault (Option α) :=
  if before.isSome then .error .mismatched else read.map some

def Segment.takeEntries (entries : Option (List Entry)) (key : String) (field : Document) :
    Except JsonFault (Option (List Entry)) :=
  if key = "instructions" then readOnce entries (field.asList Entry.ofDocument)
  else do
    field.skip
    return entries

def Segment.ofDocument (d : Document) : Except JsonFault Segment := do
  let entries ← d.foldRecord ["instructions"] takeEntries none
  orMismatched (entries.map Segment.mk)

structure Label.Parts where
  address : Option Nat := none
  segment : Option String := none

def Label.Parts.take (parts : Label.Parts) (key : String) (field : Document) :
    Except JsonFault Label.Parts :=
  if key = "address" then do
    return { parts with address := ← readOnce parts.address (field.asNatural (2 * integerBound)) }
  else if key = "segment" then do
    return { parts with segment := ← readOnce parts.segment field.asText }
  else do
    field.skip
    return parts

/-- The label of a document; its segment is the empty text if it is not given. -/
def Label.ofDocument (d : Document) : Except JsonFault Label := do
  let parts ← d.foldRecord ["address", "segment"] Label.Parts.take {}
  orMismatched (parts.address.map fun address => ⟨address, parts.segment.getD ""⟩)

namespace Program

structure Parts where
  segments : Option (List (String × Segment)) := none
  labels : Option (List (String × Label)) := none
  switches : Option (List String) := none

def Parts.take (parts : Parts) (key : String) (field : Document) : Except JsonFault Parts :=
  if key = "segments" then do
    return { parts with
      segments := ← readOnce parts.segments (field.asFields Segment.ofDocument) }
  else if key = "labels" then do
    return { parts with labels := ← readOnce parts.labels (field.asFields Label.ofDocument) }
  else if key = "directives" then do
    return { parts with switches := ← readOnce parts.switches (field.asList switchOfDocument) }
  else do
    field.skip
    return parts

def ofDocument (d : Document) : Except JsonFault Program := do
  let parts ← d.foldRecord ["segments", "labels", "directives"] Parts.take {}
  orMismatched do
    return ⟨.ofList (← parts.segments), .ofList (← parts.labels), ← parts.switches⟩

end Program

/-- The program of a JSON text, behind which nothing may follow. -/
def importProgram (source : String) : Except JsonFault Program := do
  let (document, more) := Document.ofText source
  let program ← Program.ofDocument document
  if more then .error .malformed else return program

end MipsAssembly
