import MipsAssembly.Json.Value
import MipsAssembly.Text.Padding

/-!
# Writing JSON

Values are written with one item or field a line, indented by two spaces for each list or
object around it.  Lists and objects without content are written on one line.

## Main definitions

- `JsonValue.writeText` — a text between quotes.
- `JsonValue.write` — a value.
-/

namespace MipsAssembly

namespace JsonValue

/-- A character between quotes.  Quotes, backslashes and control characters are escaped, and
every other character stands for itself. -/
def writeChar (c : Char) : List Char :=
  match c with
  | '"' => ['\\', '"']
  | '\\' => ['\\', '\\']
  | '\x08' => ['\\', 'b']
  | '\x0c' => ['\\', 'f']
  | '\n' => ['\\', 'n']
  | '\r' => ['\\', 'r']
  | '\t' => ['\\', 't']
  | _ =>
    if c.toNat < 0x20 then
      ['\\', 'u'] ++ padLeft 4 '0' (Numeral.smallHexadecimal c.toNat)
    else [c]

/-- A text between quotes. -/
def writeText (content : List Char) : List Char :=
  '"' :: (content.flatMap writeChar ++ ['"'])

/-- Floating-point numbers in JSON are positional from `0.00001` up to `10 ^ 16`, and a power
of ten has a sign; of two candidates at the same distance the even one is written. -/
def numberLayout : FloatLayout where
  least := -5
  limit := 16
  plus := true
  tie := .even

/-- A number.  JSON has no way to write a number that is not finite. -/
def writeNumber : Number → List Char
  | .integer value => Numeral.signed value
  | .real value => if value.isFinite then value.chars numberLayout else "null".toList

/-- The start of a line inside so many lists and objects. -/
def newLine (level : Nat) : List Char :=
  '\n' :: List.replicate (2 * level) ' '

mutual

/-- A value inside so many lists and objects, in front of the rest of a text. -/
def writeBefore (rest : List Char) (level : Nat) : JsonValue → List Char
  | null => "null".toList ++ rest
  | bool true => "true".toList ++ rest
  | bool false => "false".toList ++ rest
  | number value => writeNumber value ++ rest
  | text content => writeText content.toList ++ rest
  | array [] => '[' :: ']' :: rest
  | array items => '[' :: writeItems (newLine level ++ ']' :: rest) (level + 1) items
  | object [] => '\x7b' :: '\x7d' :: rest
  | object fields => '\x7b' :: writeFields (newLine level ++ '\x7d' :: rest) (level + 1) fields

def writeItems (rest : List Char) (level : Nat) : List JsonValue → List Char
  | [] => rest
  | [item] => newLine level ++ writeBefore rest level item
  | item :: items => newLine level ++ writeBefore (',' :: writeItems rest level items) level item

def writeFields (rest : List Char) (level : Nat) : List (String × JsonValue) → List Char
  | [] => rest
  | [(key, value)] =>
    newLine level ++ writeText key.toList ++ ':' :: ' ' :: writeBefore rest level value
  | (key, value) :: fields =>
    newLine level ++ writeText key.toList
      ++ ':' :: ' ' :: writeBefore (',' :: writeFields rest level fields) level value

end

def write (value : JsonValue) : String :=
  String.ofList (value.writeBefore [] 0)

end JsonValue

end MipsAssembly
