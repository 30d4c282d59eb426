import MipsAssembly.Statement
import MipsAssembly.Statement.Error

/-!
# The grammar of lines

Statements are read from tokens one token at a time.  A `Phase` is what has been read of the
current line; `Phase.next` tells which phase a token leads to and which statements it
completes, and `Phase.finish?` tells what the end of a line, or of the input, completes.

    line        = { name ":" } [ directive | instruction ]
    directive   = ".text" | ".data"
                | ( ".ascii" | ".asciiz" ) text
                | ".space" sum
                | ( ".word" | ".half" | ".byte" | ".float" | ".double" ) sum { "," sum }
    instruction = name [ operand { "," operand } ]
    operand     = register | "(" register ")" | sum [ "(" register ")" ]
    sum         = product { ( "+" | "-" ) product }
    product     = value { ( "*" | "/" | "%" ) value }
    value       = [ "-" ] number | name | "(" sum ")"

Operators associate to the left.  A parenthesis opens a group, either of a sum or of a register on
its own, unless it stands in front of the base register behind an offset.  A limit may be given for
the number of groups that are open at once; a parenthesis that opens one more is refused.

## Main definitions

- `Pending` — the left sides of operators that wait for their right sides.
- `Purpose` — the statement that a sum is being read for.
- `Phase` — what has been read of a line.
- `Phase.next` — the effect of one token.
- `Phase.opensGroup`, `Phase.closesGroup` — the tokens that open and close groups.
-/

namespace MipsAssembly

/-- The left sides of operators that wait for their right sides, inside one group. -/
structure Pending where
  /-- The left side of an addition or a subtraction. -/
  sum : Option (Operand × BinaryOperator) := none
  /-- The left side of a multiplication, a division or a remainder. -/
  product : Option (Operand × BinaryOperator) := none
  deriving DecidableEq

namespace Pending

/-- Give a waiting left side its right side. -/
def join : Option (Operand × BinaryOperator) → Operand → Operand
  | none, value => value
  | some (left, operator), value => .binary operator left value

/-- The product that ends with a value. -/
def productOf (pending : Pending) (value : Operand) : Operand :=
  join pending.product value

/-- The sum that ends with a value. -/
def sumOf (pending : Pending) (value : Operand) : Operand :=
  join pending.sum (pending.productOf value)

/-- What waits after a value and an operator. -/
def push (pending : Pending) (value : Operand) : BinaryOperator → Pending
  | .add => ⟨some (pending.sumOf value, .add), none⟩
  | .sub => ⟨some (pending.sumOf value, .sub), none⟩
  | .mul => ⟨pending.sum, some (pending.productOf value, .mul)⟩
  | .div => ⟨pending.sum, some (pending.productOf value, .div)⟩
  | .mod => ⟨pending.sum, some (pending.productOf value, .mod)⟩

end Pending

def TokenKind.operator? : TokenKind → Option BinaryOperator
  | plus => some .add
  | minus => some .sub
  | star => some .mul
  | slash => some .div
  | percent => some .mod
  | _ => none

/-- The statement that a sum is being read for. -/
inductive Purpose where
  /-- The next operand of an instruction, behind the operands given. -/
  | operand (opcode : String) (before : List Operand)
  /-- The next value of a data directive, behind the values given. -/
  | value (mode : DataMode) (before : List Operand)
  | only (mode : DataMode)
  deriving DecidableEq

namespace Purpose

/-- The statement that is complete with a last operand or value. -/
def complete : Purpose → Operand → Statement
  | operand opcode before, last => .entry (.instruction (.ofOperands opcode (before ++ [last])))
  | value mode before, last => .entry (.data ⟨mode, .ofSnoc before last⟩)
  | only mode, last => .entry (.data ⟨mode, .scalar last⟩)

end Purpose

/-- What has been read of a line. -/
inductive Phase where
  /-- Nothing. -/
  | lineStart
  /-- Labels, at least one. -/
  | afterLabel
  /-- A name, which may turn out to be a label or an instruction. -/
  | named (name : String) (position : Position)
  /-- All of it but its end. -/
  | complete
  /-- A directive that takes a text. -/
  | beforeText (mode : DataMode)
  /-- An instruction up to a comma, so that an operand has to follow. -/
  | beforeOperand (opcode : String) (before : List Operand)
  /-- A parenthesis at the start of an operand, which opens a sum or a register. -/
  | groupOrBase (opcode : String) (before : List Operand)
  /-- A parenthesis and a register at the start of an operand. -/
  | indirectBase (opcode : String) (before : List Operand) (base : Operand)
  /-- A part of a sum behind which a value has to follow; `outer` are the groups around. -/
  | beforeValue (purpose : Purpose) (inner : Pending) (outer : List Pending)
  /-- A minus sign in the place of a value, so that a number has to follow. -/
  | afterSign (purpose : Purpose) (inner : Pending) (outer : List Pending)
  /-- A part of a sum that ends with a value. -/
  | afterValue (purpose : Purpose) (inner : Pending) (outer : List Pending) (value : Operand)
  /-- An offset and a parenthesis, so that a register has to follow. -/
  | beforeBase (opcode : String) (before : List Operand) (offset : Operand)
  /-- An offset, a parenthesis and a register. -/
  | indexedBase (opcode : String) (before : List Operand) (offset base : Operand)
  /-- An operand that nothing but a comma can follow. -/
  | afterOperand (opcode : String) (before : List Operand) (operand : Operand)
  deriving DecidableEq

namespace Phase

/-- What messages say is expected in a phase. -/
def expected : Phase → String
  | lineStart => "label, directive or instruction"
  | beforeText _ => "string literal"
  | named _ _ | beforeOperand _ _ | groupOrBase _ _ | beforeValue _ _ _ =>
    "number, identifier or `(`"
  | afterSign _ _ _ => "number after `-`"
  | beforeBase _ _ _ => "register"
  | indirectBase _ _ _ | indexedBase _ _ _ _ | afterValue _ _ (_ :: _) _ => "`)`"
  | afterLabel | complete | afterValue _ _ [] _ | afterOperand _ _ _ => "end of line"

/-- The statements that are complete when the line ends here, or none if it cannot. -/
def finish? : Phase → Option (List Statement)
  | lineStart | afterLabel | complete => some []
  | named name _ => some [.entry (.instruction (.ofOperands name []))]
  | afterValue purpose inner [] value => some [purpose.complete (inner.sumOf value)]
  | afterOperand opcode before operand =>
    some [(Purpose.operand opcode before).complete operand]
  | _ => none

/-- The error of a token that a phase cannot go on with. -/
def refuse {α : Type} (phase : Phase) (token : Token) : Except SyntaxError α :=
  .error (.unexpectedToken phase.expected token.kind token.position)

/-- Open a group inside the given number of open groups, if there may be one more. -/
def openGroup (limit : Option Nat) (groups : Nat) (token : Token) (phase : Phase) :
    Except SyntaxError Phase :=
  if limit.all (groups < ·) then .ok phase
  else .error (.unexpectedToken "shallower expression" token.kind token.position)

/-- A token in the place of a value. -/
def startValue (limit : Option Nat) (purpose : Purpose) (inner : Pending)
    (outer : List Pending) (token : Token) : Except SyntaxError Phase :=
  match token.kind with
  | .minus => .ok (afterSign purpose inner outer)
  | .number radix value => .ok (afterValue purpose inner outer (.number radix value))
  | .identifier name => .ok (afterValue purpose inner outer (.identifier name))
  | .openParen => openGroup limit outer.length token (beforeValue purpose {} (inner :: outer))
  | _ => refuse (beforeValue purpose inner outer) token

/-- A token in the place of an operand. -/
def startOperand (limit : Option Nat) (opcode : String) (before : List Operand)
    (token : Token) : Except SyntaxError Phase :=
  match token.kind with
  | .register name => .ok (afterOperand opcode before (.ofRegister name))
  | .openParen => openGroup limit 0 token (groupOrBase opcode before)
  | _ => startValue limit (.operand opcode before) {} [] token

/-- A token behind a value. -/
def continueSum (purpose : Purpose) (inner : Pending) (outer : List Pending)
    (value : Operand) (token : Token) : Except SyntaxError Phase :=
  match token.kind.operator?, outer with
  | some operator, _ => .ok (beforeValue purpose (inner.push value operator) outer)
  | none, level :: levels =>
    if token.kind = .closeParen then .ok (afterValue purpose level levels (inner.sumOf value))
    else refuse (afterValue purpose inner outer value) token
  | none, [] =>
    match purpose, token.kind with
    | .operand opcode before, .openParen => .ok (beforeBase opcode before (inner.sumOf value))
    | .operand opcode before, .comma =>
      .ok (beforeOperand opcode (before ++ [inner.sumOf value]))
    | .value mode before, .comma =>
      .ok (beforeValue (.value mode (before ++ [inner.sumOf value])) {} [])
    | _, _ => refuse (afterValue purpose inner outer value) token

/-- The directive of the given name. -/
def startDirective (name : String) (position : Position) :
    Except SyntaxError (Phase × List Statement) :=
  if name = textSegment ∨ name = dataSegment then .ok (complete, [.segment name])
  else
    match DataMode.ofName? name with
    | none => .error (.unknownDirective name position)
    | some mode =>
      match mode.arity with
      | .text => .ok (beforeText mode, [])
      | .single => .ok (beforeValue (.only mode) {} [], [])
      | .list => .ok (beforeValue (.value mode []) {} [], [])

/-- A token inside a line. -/
def within (limit : Option Nat) (phase : Phase) (token : Token) :
    Except SyntaxError (Phase × List Statement) :=
  match phase, token.kind with
  | lineStart, .identifier name | afterLabel, .identifier name =>
    .ok (named name token.position, [])
  | lineStart, .directive name | afterLabel, .directive name =>
    startDirective name token.position
  | named name position, .colon => .ok (afterLabel, [.label name position])
  | named name _, _ => (startOperand limit name [] token).map (·, [])
  | beforeText mode, .text content =>
    .ok (complete, [.entry (.data ⟨mode, .scalar (.text content)⟩)])
  | beforeOperand opcode before, _ => (startOperand limit opcode before token).map (·, [])
  | groupOrBase opcode before, .register name =>
    .ok (indirectBase opcode before (.ofRegister name), [])
  | groupOrBase opcode before, _ =>
    (startValue limit (.operand opcode before) {} [{}] token).map (·, [])
  | indirectBase opcode before base, .closeParen =>
    .ok (afterOperand opcode before (.indirect base), [])
  | beforeValue purpose inner outer, _ =>
    (startValue limit purpose inner outer token).map (·, [])
  | afterSign purpose inner outer, .number radix value =>
    .ok (afterValue purpose inner outer (.number radix value.negate), [])
  | afterValue purpose inner outer value, _ =>
    (continueSum purpose inner outer value token).map (·, [])
  | beforeBase opcode before offset, .register name =>
    .ok (indexedBase opcode before offset (.ofRegister name), [])
  | indexedBase opcode before offset base, .closeParen =>
    .ok (afterOperand opcode before (.indexed offset base), [])
  | afterOperand opcode before operand, .comma =>
    .ok (beforeOperand opcode (before ++ [operand]), [])
  | _, _ => refuse phase token

/-- The phase that a token leads to, and the statements that it completes. -/
def next (limit : Option Nat) (phase : Phase) (token : Token) :
    Except SyntaxError (Phase × List Statement) :=
  if token.kind = .lineEnd then
    match phase.finish? with
    | some statements => .ok (lineStart, statements)
    | none => refuse phase token
  else within limit phase token

/-- Does a token open a group?  A parenthesis does in the place of an operand or of a value, but
not in front of the base register behind an offset. -/
def opensGroup : Phase → TokenKind → Bool
  | named _ _, .openParen | beforeOperand _ _, .openParen | groupOrBase _ _, .openParen
  | beforeValue _ _ _, .openParen => true
  | _, _ => false

/-- Does a token close a group? -/
def closesGroup : Phase → TokenKind → Bool
  | indirectBase _ _ _, .closeParen => true
  | afterValue _ _ outer _, .closeParen => !outer.isEmpty
  | _, _ => false

end Phase

end MipsAssembly
