import MipsAssembly.Json.Writer
import MipsAssembly.Program

/-!
# Programs as JSON

Every node of a program is an object with its kind in the field `type`.  What is absent has no
field.  The segment of a label is left out, so that a label is only an address.

`Program.exportJson` writes a program; the functions `toJson` give the values of its parts.
-/

namespace MipsAssembly

def Operand.toJson : Operand → JsonValue
  | register name kind =>
    .object [("type", .text "Register"), ("value", .text name), ("kind", .text kind.name)]
  | number radix value =>
    .object [("type", .text "Number"), ("kind", .text radix.name), ("value", .number value)]
  | identifier name => .object [("type", .text "Identifier"), ("value", .text name)]
  | text content => .object [("type", .text "String"), ("value", .text content)]
  | binary operator left right =>
    .object [("type", .text "Binary"), ("operator", .text (String.singleton operator.symbol)),
      ("left", left.toJson), ("right", right.toJson)]
  | indirect base => .object [("type", .text "Indexed"), ("base", base.toJson)]
  | indexed offset base =>
    .object [("type", .text "Indexed"), ("offset", offset.toJson), ("base", base.toJson)]

def DataValue.toJson : DataValue → JsonValue
  | scalar value => value.toJson
  | list values => .array (values.map Operand.toJson)

def Instruction.jsonFields (i : Instruction) : List (String × JsonValue) :=
  ("opcode", .text i.opcode) ::
    match i.operandList with
    | none => []
    | some operands => [("operands", .array (operands.map Operand.toJson))]

def Data.jsonFields (d : Data) : List (String × JsonValue) :=
  [("mode", .text d.mode.name), ("value", d.value.toJson)]

def Entry.toJson : Entry → JsonValue
  | instruction i => .object (("type", .text "Instruction") :: i.jsonFields)
  | data d => .object (("type", .text "Data") :: d.jsonFields)

def Segment.toJson (s : Segment) : JsonValue :=
  .object [("instructions", .array (s.entries.map Entry.toJson))]

def Label.toJson (l : Label) : JsonValue :=
  .object [("address", .number (.integer l.address))]

def switchJson (segment : String) : JsonValue :=
  .object [("type", .text "Segment"), ("value", .text segment)]

def Program.toJson (p : Program) : JsonValue :=
  .object
    [("type", .text "Program"),
     ("segments", .object (p.segments.entries.map fun (name, s) => (name, s.toJson))),
     ("labels", .object (p.labels.entries.map fun (name, l) => (name, l.toJson))),
     ("directives", .array (p.switches.map switchJson))]

/-- A program as a JSON text. -/
def Program.exportJson (p : Program) : String :=
  p.toJson.write

end MipsAssembly
