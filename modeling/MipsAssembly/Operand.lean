import MipsAssembly.Number

/-!
# Operands

An `Operand` is an argument of an instruction or a value of a data directive: a register, a
numeral, a name, a text, an expression of two operands, or a memory access relative to a
register, with or without an offset.

Operands are trees.  Parentheses of a source text leave no node; they show only in the shape
of the tree.
-/

namespace MipsAssembly

/-- How a register is spelled. -/
inductive RegisterKind where
  /-- By name, `$t0`. -/
  | named
  /-- By number, `$8`. -/
  | numbered
  deriving DecidableEq, Repr

namespace RegisterKind

def name : RegisterKind → String
  | named => "Name"
  | numbered => "Number"

def ofName? : String → Option RegisterKind
  | "Name" => some named
  | "Number" => some numbered
  | _ => none

theorem ofName?_name (kind : RegisterKind) : ofName? kind.name = some kind := by
  cases kind <;> rfl

/-- A register is numbered if there are only digits behind the dollar signs, and at least
one. -/
def ofRegister (register : String) : RegisterKind :=
  let rest := register.toList.dropWhile (· = '$')
  if rest ≠ [] ∧ rest.all Char.isDigit then numbered else named

end RegisterKind

/-- The operators of expressions. -/
inductive BinaryOperator where
  | add
  | sub
  | mul
  | div
  | mod
  deriving DecidableEq, Repr

namespace BinaryOperator

def symbol : BinaryOperator → Char
  | add => '+'
  | sub => '-'
  | mul => '*'
  | div => '/'
  | mod => '%'

def ofSymbol? : String → Option BinaryOperator
  | "+" => some add
  | "-" => some sub
  | "*" => some mul
  | "/" => some div
  | "%" => some mod
  | _ => none

theorem ofSymbol?_symbol (op : BinaryOperator) :
    ofSymbol? (String.singleton op.symbol) = some op := by
  cases op <;> rfl

/-- How strongly an operator binds: multiplication, division and remainder bind more
strongly than addition and subtraction. -/
def precedence : BinaryOperator → Nat
  | add | sub => 1
  | mul | div | mod => 2

end BinaryOperator

/-- An argument of an instruction or a value of a data directive. -/
inductive Operand where
  /-- A register, its name with the dollar sign. -/
  | register (name : String) (kind : RegisterKind)
  | number (radix : Radix) (value : Number)
  /-- A name, such as that of a label. -/
  | identifier (name : String)
  | text (content : String)
  | binary (operator : BinaryOperator) (left right : Operand)
  /-- The memory at a register, `($sp)`. -/
  | indirect (base : Operand)
  /-- The memory at an offset from a register, `4($sp)`. -/
  | indexed (offset base : Operand)
  deriving DecidableEq

namespace Operand

/-- A register, numbered or named as its spelling tells. -/
def ofRegister (name : String) : Operand :=
  register name (.ofRegister name)

def int (value : Int) : Operand :=
  number .decimal (.integer value)

/-- An integer in base sixteen. -/
def hex (value : Int) : Operand :=
  number .hexadecimal (.integer value)

def float (value : Binary64) : Operand :=
  number .decimal (.real value)

/-- The memory at a register, with an offset or without. -/
def atBase (base : Operand) : Option Operand → Operand
  | none => indirect base
  | some offset => indexed offset base

/-- Equality of operands whose floating-point numbers are compared by value. -/
def sameValue : Operand → Operand → Bool
  | register name kind, register name' kind' => name = name' && kind = kind'
  | number radix value, number radix' value' => radix = radix' && value.sameValue value'
  | identifier name, identifier name' => name = name'
  | text content, text content' => content = content'
  | binary op left right, binary op' left' right' =>
    op = op' && left.sameValue left' && right.sameValue right'
  | indirect base, indirect base' => base.sameValue base'
  | indexed offset base, indexed offset' base' =>
    offset.sameValue offset' && base.sameValue base'
  | _, _ => false

def sameValues : List Operand → List Operand → Bool
  | [], [] => true
  | a :: as, b :: bs => a.sameValue b && sameValues as bs
  | _, _ => false

end Operand

end MipsAssembly
