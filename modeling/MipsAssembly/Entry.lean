import MipsAssembly.Operand

/-!
# Entries of a segment

An `Entry` is one addressable element of a segment: an instruction with its operands, or a
data directive with its values.

## Main definitions

- `Instruction` — a name and its operands; no operand list at all and an empty one are told
  apart.
- `DataMode` — the data directives; `DataMode.arity` tells how many values each takes.
- `DataValue` — a single value or a list of values.
- `Entry` — an instruction or data.
-/

namespace MipsAssembly

structure Instruction where
  opcode : String
  /-- The operands; `none` where there is no list of operands. -/
  operandList : Option (List Operand)
  deriving DecidableEq

namespace Instruction

/-- An instruction with operands, without a list of them if there are none. -/
def ofOperands (opcode : String) (operands : List Operand) : Instruction :=
  ⟨opcode, if operands.isEmpty then none else some operands⟩

def operands (i : Instruction) : List Operand :=
  i.operandList.getD []

@[simp] theorem operands_ofOperands (opcode : String) (operands : List Operand) :
    (ofOperands opcode operands).operands = operands := by
  cases operands <;> rfl

/-- Equality with floating-point numbers compared by value. -/
def sameValue (i j : Instruction) : Bool :=
  i.opcode = j.opcode && i.operandList.isSome = j.operandList.isSome
    && Operand.sameValues i.operands j.operands

end Instruction

/-- How many values a data directive takes. -/
inductive Arity where
  /-- One text. -/
  | text
  /-- One expression. -/
  | single
  | list
  deriving DecidableEq, Repr

namespace Arity

def name : Arity → String
  | text => "Text"
  | single => "Single"
  | list => "List"

end Arity

/-- The data directives.  Switching to a segment is not one of them. -/
inductive DataMode where
  | word
  | half
  | byte
  /-- Floating-point numbers of single width. -/
  | float
  /-- Floating-point numbers of double width. -/
  | double
  /-- A text. -/
  | ascii
  /-- A text with a zero behind it. -/
  | asciiz
  | space
  deriving DecidableEq, Repr

namespace DataMode

def name : DataMode → String
  | word => ".word"
  | half => ".half"
  | byte => ".byte"
  | float => ".float"
  | double => ".double"
  | ascii => ".ascii"
  | asciiz => ".asciiz"
  | space => ".space"

def ofName? : String → Option DataMode
  | ".word" => some word
  | ".half" => some half
  | ".byte" => some byte
  | ".float" => some float
  | ".double" => some double
  | ".ascii" => some ascii
  | ".asciiz" => some asciiz
  | ".space" => some space
  | _ => none

theorem ofName?_name (mode : DataMode) : ofName? mode.name = some mode := by
  cases mode <;> rfl

def arity : DataMode → Arity
  | ascii | asciiz => .text
  | space => .single
  | word | half | byte | float | double => .list

end DataMode

/-- The value of a data directive. -/
inductive DataValue where
  | scalar (value : Operand)
  | list (values : List Operand)
  deriving DecidableEq

namespace DataValue

/-- A value on its own stays single, more make a list, and none makes nothing. -/
def ofValues? : List Operand → Option DataValue
  | [] => none
  | [value] => some (scalar value)
  | values => some (list values)

/-- A value behind any number of others. -/
def ofSnoc : List Operand → Operand → DataValue
  | [], last => scalar last
  | before, last => list (before ++ [last])

def values : DataValue → List Operand
  | scalar value => [value]
  | list values => values

theorem ofValues?_snoc (before : List Operand) (last : Operand) :
    ofValues? (before ++ [last]) = some (ofSnoc before last) := by
  rcases before with _ | ⟨first, _ | ⟨second, rest⟩⟩ <;> rfl

@[simp] theorem values_ofSnoc (before : List Operand) (last : Operand) :
    (ofSnoc before last).values = before ++ [last] := by
  cases before <;> rfl

/-- Equality with floating-point numbers compared by value. -/
def sameValue : DataValue → DataValue → Bool
  | scalar value, scalar value' => value.sameValue value'
  | list values, list values' => Operand.sameValues values values'
  | _, _ => false

end DataValue

structure Data where
  mode : DataMode
  value : DataValue
  deriving DecidableEq

/-- One addressable element of a segment. -/
inductive Entry where
  | instruction (instruction : Instruction)
  | data (data : Data)
  deriving DecidableEq

namespace Entry

/-- Equality with floating-point numbers compared by value. -/
def sameValue : Entry → Entry → Bool
  | instruction i, instruction j => i.sameValue j
  | data d, data e => d.mode = e.mode && d.value.sameValue e.value
  | _, _ => false

end Entry

end MipsAssembly
