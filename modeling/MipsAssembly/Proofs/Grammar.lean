import MipsAssembly.Statement.Phase

/-!
# The grammar of source texts

The grammar of source texts as relations between rows of tokens and what they stand for.  A
rule is a constructor, so a derivation is a proof, and the tree of an expression is read off
its derivation.

    source      = { line-end | line }
    line        = { name ":" } [ directive | instruction ]     (not empty)
    directive   = ".text" | ".data"
                | ( ".ascii" | ".asciiz" ) text
                | ".space" sum
                | ( ".word" | ".half" | ".byte" | ".float" | ".double" ) sum { "," sum }
    instruction = name [ operand { "," operand } ]
    operand     = register | "(" register ")" | sum [ "(" register ")" ]
    sum         = product { ( "+" | "-" ) product }
    product     = value { ( "*" | "/" | "%" ) value }
    value       = "-" number | number | name | "(" sum ")"

Repetitions are written with the repeated part on the right, so that operators associate to
the left.  Nothing here refers to the way in which tokens are read.

## Main definitions

- `Grammar.Expression` — sums, products and values, inside a number of open groups.
- `Grammar.Argument` — the operands of instructions.
- `Grammar.Separated` — rows with commas between their items.
- `Grammar.Body` — directives and instructions.
- `Grammar.Labels`, `Grammar.Line`, `Grammar.Source` — lines and source texts.
-/

namespace MipsAssembly

namespace Grammar

/-- The kinds of expressions, from the loosest to the tightest. -/
inductive Level where
  -- Products with `+` and `-` between them.
  | sum
  -- Values with `*`, `/` and `%` between them.
  | product
  -- A numeral, a name or a group.
  | value
  deriving DecidableEq

end Grammar

namespace BinaryOperator

def tokenKind : BinaryOperator → TokenKind
  | add => .plus
  | sub => .minus
  | mul => .star
  | div => .slash
  | mod => .percent

/-- The level of the expressions that an operator makes. -/
def level : BinaryOperator → Grammar.Level
  | add | sub => .sum
  | mul | div | mod => .product

theorem eq_tokenKind_of_operator? {kind : TokenKind} {op : BinaryOperator}
    (h : kind.operator? = some op) : kind = op.tokenKind := by
  cases kind <;> simp only [TokenKind.operator?, reduceCtorEq, Option.some.injEq] at h <;>
    subst h <;> rfl

end BinaryOperator

namespace Grammar

/-- One more group may be opened inside `groups` open ones.  Without a limit it always may. -/
def Opens (limit : Option Nat) (groups : Nat) : Prop :=
  limit.all (groups < ·) = true

/-- `Expression limit level groups kinds e`: inside `groups` open groups, tokens of the given
kinds are an expression of a level that stands for the operand `e`.  Parentheses leave no
node, and a minus sign in front of a numeral belongs to it. -/
inductive Expression (limit : Option Nat) :
    Level → Nat → List TokenKind → Operand → Prop where
  -- `value = number`
  | number {groups : Nat} (radix : Radix) (value : Number) :
    Expression limit .value groups [.number radix value] (.number radix value)
  -- `value = "-" number`
  | negative {groups : Nat} (radix : Radix) (value : Number) :
    Expression limit .value groups [.minus, .number radix value] (.number radix value.negate)
  -- `value = name`
  | name {groups : Nat} (name : String) :
    Expression limit .value groups [.identifier name] (.identifier name)
  -- `value = "(" sum ")"`
  | group {groups : Nat} {kinds : List TokenKind} {e : Operand} :
    Opens limit groups → Expression limit .sum (groups + 1) kinds e →
    Expression limit .value groups (.openParen :: (kinds ++ [.closeParen])) e
  -- `product = value`
  | value {groups : Nat} {kinds : List TokenKind} {e : Operand} :
    Expression limit .value groups kinds e → Expression limit .product groups kinds e
  -- `product = product ( "*" | "/" | "%" ) value`
  | times {groups : Nat} {op : BinaryOperator} {lefts rights : List TokenKind}
      {left right : Operand} :
    op.level = .product → Expression limit .product groups lefts left →
    Expression limit .value groups rights right →
    Expression limit .product groups (lefts ++ op.tokenKind :: rights) (.binary op left right)
  -- `sum = product`
  | product {groups : Nat} {kinds : List TokenKind} {e : Operand} :
    Expression limit .product groups kinds e → Expression limit .sum groups kinds e
  -- `sum = sum ( "+" | "-" ) product`
  | plus {groups : Nat} {op : BinaryOperator} {lefts rights : List TokenKind}
      {left right : Operand} :
    op.level = .sum → Expression limit .sum groups lefts left →
    Expression limit .product groups rights right →
    Expression limit .sum groups (lefts ++ op.tokenKind :: rights) (.binary op left right)

/-- Tokens of the given kinds are an operand of an instruction.  The parentheses around a
register on its own are a group; those behind an offset are not. -/
inductive Argument (limit : Option Nat) : List TokenKind → Operand → Prop where
  -- `operand = register`
  | register (name : String) : Argument limit [.register name] (.ofRegister name)
  -- `operand = "(" register ")"`
  | indirect (name : String) :
    Opens limit 0 →
    Argument limit [.openParen, .register name, .closeParen] (.indirect (.ofRegister name))
  -- `operand = sum`
  | sum {kinds : List TokenKind} {e : Operand} :
    Expression limit .sum 0 kinds e → Argument limit kinds e
  -- `operand = sum "(" register ")"`
  | indexed {kinds : List TokenKind} {e : Operand} (name : String) :
    Expression limit .sum 0 kinds e →
    Argument limit (kinds ++ [.openParen, .register name, .closeParen])
      (.indexed e (.ofRegister name))

/-- Items, at least one, with commas between them. -/
inductive Separated (item : List TokenKind → Operand → Prop) :
    List TokenKind → List Operand → Prop where
  | single {kinds : List TokenKind} {e : Operand} : item kinds e → Separated item kinds [e]
  -- One more item behind a comma.
  | snoc {before last : List TokenKind} {es : List Operand} {e : Operand} :
    Separated item before es → item last e →
    Separated item (before ++ .comma :: last) (es ++ [e])

/-- Tokens of the given kinds are a directive or an instruction. -/
inductive Body (limit : Option Nat) : List TokenKind → Statement → Prop where
  -- `directive = ".text" | ".data"`
  | segment {name : String} :
    name = textSegment ∨ name = dataSegment → Body limit [.directive name] (.segment name)
  -- `directive = ( ".ascii" | ".asciiz" ) text`
  | text {mode : DataMode} (content : String) :
    mode.arity = .text →
    Body limit [.directive mode.name, .text content]
      (.entry (.data ⟨mode, .scalar (.text content)⟩))
  -- `directive = ".space" sum`
  | single {mode : DataMode} {kinds : List TokenKind} {e : Operand} :
    mode.arity = .single → Expression limit .sum 0 kinds e →
    Body limit (.directive mode.name :: kinds) (.entry (.data ⟨mode, .scalar e⟩))
  -- `directive = ( ".word" | ".half" | ".byte" | ".float" | ".double" ) sum { "," sum }`
  | list {mode : DataMode} {kinds : List TokenKind} {es : List Operand} {value : DataValue} :
    mode.arity = .list → Separated (Expression limit .sum 0) kinds es →
    DataValue.ofValues? es = some value →
    Body limit (.directive mode.name :: kinds) (.entry (.data ⟨mode, value⟩))
  -- `instruction = name`
  | opcode (name : String) :
    Body limit [.identifier name] (.entry (.instruction (.ofOperands name [])))
  -- `instruction = name operand { "," operand }`
  | instruction (name : String) {kinds : List TokenKind} {es : List Operand} :
    Separated (Argument limit) kinds es →
    Body limit (.identifier name :: kinds) (.entry (.instruction (.ofOperands name es)))

inductive Labels : List Token → List Statement → Prop where
  | nil : Labels [] []
  -- One more name with a colon behind it.
  | snoc {tokens : List Token} {statements : List Statement} (name : String)
      (position colon : Position) :
    Labels tokens statements →
    Labels (tokens ++ [⟨.identifier name, position⟩, ⟨.colon, colon⟩])
      (statements ++ [.label name position])

/-- A line without its end: labels, or labels and a directive or an instruction. -/
inductive Line (limit : Option Nat) : List Token → List Statement → Prop where
  -- Labels only, at least one.
  | labels {tokens : List Token} {statements : List Statement} :
    Labels tokens statements → tokens ≠ [] → Line limit tokens statements
  -- Labels, or none, and a directive or an instruction.
  | body {before tokens : List Token} {statements : List Statement} {statement : Statement} :
    Labels before statements → Body limit (tokens.map Token.kind) statement →
    Line limit (before ++ tokens) (statements ++ [statement])

/-- A source text: line ends and lines, where only the last line may go without its end. -/
inductive Source (limit : Option Nat) : List Token → List Statement → Prop where
  | nil : Source limit [] []
  -- A line end on its own.
  | blank {tokens : List Token} {statements : List Statement} (stop : Position) :
    Source limit tokens statements → Source limit (⟨.lineEnd, stop⟩ :: tokens) statements
  -- A line at the end of the input.
  | last {tokens : List Token} {statements : List Statement} :
    Line limit tokens statements → Source limit tokens statements
  -- A line with its end.
  | line {tokens rest : List Token} {statements more : List Statement} (stop : Position) :
    Line limit tokens statements → Source limit rest more →
    Source limit (tokens ++ ⟨.lineEnd, stop⟩ :: rest) (statements ++ more)

end Grammar

end MipsAssembly
