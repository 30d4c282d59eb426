import MipsAssembly.Numeral
import MipsAssembly.Text.Printable

/-!
# Texts between quotes

A text is written between double quotes in two ways.

- `TextLiteral.write` is the form of source text.  It escapes what would end the literal or
  the line, and a few more characters that have a short escape; every other character stands
  for itself.  `TextLiteral.read` reads a literal and is the left inverse of writing.
- `quoteForMessage` is the form of messages.  Besides, it writes every character that would
  not show as itself by its code point.
-/

namespace MipsAssembly

namespace TextLiteral

/-- Why a text literal cannot be read. -/
inductive Fault where
  | unterminated
  /-- A backslash is followed by a character that does not make an escape. -/
  | invalidEscape (c : Char)
  deriving DecidableEq

/-- The character that is written behind a backslash to mean the given one. -/
def escapeOf? : Char → Option Char
  | '\n' => some 'n'
  | '\t' => some 't'
  | '\r' => some 'r'
  | '\x00' => some '0'
  | '\\' => some '\\'
  | '"' => some '"'
  | _ => none

/-- The character that a backslash and the given one mean. -/
def unescape? : Char → Option Char
  | 'n' => some '\n'
  | 't' => some '\t'
  | 'r' => some '\r'
  | '0' => some '\x00'
  | '\\' => some '\\'
  | '"' => some '"'
  | '\'' => some '\''
  | _ => none

/-- A character inside a literal. -/
def writeChar (c : Char) : List Char :=
  match escapeOf? c with
  | some e => ['\\', e]
  | none => [c]

def write (text : List Char) : List Char :=
  '"' :: (text.flatMap writeChar ++ ['"'])

/-- Read a literal behind its opening quote.  The answer is the text and the number of
characters read, the closing quote included; a fault comes with its distance from the opening
quote, which is nothing for a literal without an end. -/
def read : List Char → Except (Fault × Nat) (List Char × Nat) :=
  go 0
where
  /-- Read on after `seen` characters. -/
  go (seen : Nat) : List Char → Except (Fault × Nat) (List Char × Nat)
    | [] => .error (.unterminated, 0)
    | '"' :: _ => .ok ([], seen + 1)
    | ['\\'] => .error (.unterminated, 0)
    | '\\' :: e :: rest =>
      match unescape? e with
      | none => .error (.invalidEscape e, seen + 1)
      | some c => (go (seen + 2) rest).map fun (text, length) => (c :: text, length)
    | c :: rest => (go (seen + 1) rest).map fun (text, length) => (c :: text, length)

theorem unescape?_of_escapeOf? {c e : Char} (h : escapeOf? c = some e) :
    unescape? e = some c := by
  unfold escapeOf? at h
  split at h <;> cases h <;> rfl

end TextLiteral

/-- A character in a quoted text of a message. -/
def quoteChar (c : Char) : List Char :=
  match TextLiteral.escapeOf? c with
  | some e => ['\\', e]
  | none =>
    if isPrintable c then [c]
    else ['\\', 'u', '\x7b'] ++ Numeral.smallHexadecimal c.toNat ++ ['\x7d']

/-- A text between quotes for a message. -/
def quoteForMessage (text : List Char) : List Char :=
  '"' :: (text.flatMap quoteChar ++ ['"'])

end MipsAssembly
