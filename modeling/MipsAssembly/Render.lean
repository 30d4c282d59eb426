import MipsAssembly.Entry
import MipsAssembly.Text.Quoted

/-!
# Operands and entries as source text

An operand is written in the form in which it is read.  Between the operands of an operator
there are spaces, and parentheses stand only where the precedences of the operators and
their associativity to the left ask for them.

## Main definitions

- `Operand.chars` — an operand as source text.
- `Instruction.chars`, `Data.chars`, `Entry.chars` — a name followed by operands.
-/

namespace MipsAssembly

def inParens (cs : List Char) : List Char :=
  '(' :: (cs ++ [')'])

namespace Operand

/-- Does an operand on the left of an operator need parentheses?  It does if its own operator
binds less strongly. -/
def wrapsLeft (operator : BinaryOperator) : Operand → Bool
  | binary inner _ _ => inner.precedence < operator.precedence
  | _ => false

/-- Does an operand on the right of an operator need parentheses?  It does unless its own
operator binds more strongly. -/
def wrapsRight (operator : BinaryOperator) : Operand → Bool
  | binary inner _ _ => inner.precedence ≤ operator.precedence
  | _ => false

/-- An operand as source text. -/
def chars : Operand → List Char
  | register name _ => name.toList
  | number radix value => value.charsIn radix
  | identifier name => name.toList
  | text content => TextLiteral.write content.toList
  | binary operator left right =>
    (if left.wrapsLeft operator then inParens left.chars else left.chars)
      ++ [' ', operator.symbol, ' ']
      ++ (if right.wrapsRight operator then inParens right.chars else right.chars)
  | indirect base => inParens base.chars
  | indexed offset base => offset.chars ++ inParens base.chars

def render (operand : Operand) : String :=
  String.ofList operand.chars

end Operand

/-- Texts with a comma and a space between them. -/
def commaSeparated : List (List Char) → List Char
  | [] => []
  | [text] => text
  | text :: texts => text ++ ',' :: ' ' :: commaSeparated texts

/-- A name, followed by operands if there are any. -/
def withOperands (name : List Char) (operands : List Operand) : List Char :=
  if operands.isEmpty then name
  else name ++ ' ' :: commaSeparated (operands.map Operand.chars)

def Instruction.chars (i : Instruction) : List Char :=
  withOperands i.opcode.toList i.operands

def Data.chars (d : Data) : List Char :=
  withOperands d.mode.name.toList d.value.values

def Entry.chars : Entry → List Char
  | .instruction i => i.chars
  | .data d => d.chars

def Entry.render (entry : Entry) : String :=
  String.ofList entry.chars

end MipsAssembly
