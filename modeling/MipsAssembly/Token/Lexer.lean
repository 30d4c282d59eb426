import MipsAssembly.Text.Blank
import MipsAssembly.Text.Lines
import MipsAssembly.Token.Numeral

/-!
# Cutting a source text into tokens

Each line is cut on its own.  White space separates tokens, `#` starts a comment that takes
the rest of its line, and at every other character the longest token that starts there is
taken.  The first character that starts no token ends the work with an error.

## Main definitions

- `LexicalFault`, `LexicalError` — what can be wrong with a spelling, and where.
- `readToken` — the token at the start of a text, and its length.
- `lexLine` — the tokens of a line.
- `lex` — the tokens of a source text, line by line.
-/

namespace MipsAssembly

/-- What can be wrong with a spelling. -/
inductive LexicalFault where
  /-- A numeral that is cut short, runs into a word or is out of range. -/
  | malformedNumber (spelling : String)
  | unterminatedText
  /-- A backslash in a text with a character behind it that makes no escape. -/
  | invalidEscape (c : Char)
  /-- A dollar sign without a name. -/
  | emptyRegister
  /-- A dot without a name. -/
  | emptyDirective
  /-- A character that starts no token. -/
  | unexpectedCharacter (c : Char)
  deriving DecidableEq

namespace LexicalFault

def message : LexicalFault → String
  | malformedNumber spelling => "Malformed number literal: `" ++ spelling ++ "`"
  | unterminatedText => "Unterminated string literal"
  | invalidEscape c => "Invalid escape sequence: `\\" ++ String.singleton c ++ "`"
  | emptyRegister => "Register name required after `$`"
  | emptyDirective => "Directive name required after `.`"
  | unexpectedCharacter c => "Unexpected character: `" ++ String.singleton c ++ "`"

/-- The fault of a text literal. -/
def ofText : TextLiteral.Fault → LexicalFault
  | .unterminated => unterminatedText
  | .invalidEscape c => invalidEscape c

end LexicalFault

/-- A fault and where it is. -/
structure LexicalError where
  fault : LexicalFault
  position : Position
  deriving DecidableEq

/-- The token that starts with the given character, and how many of the characters behind it
belong to it; or what is wrong, and how far behind the given character. -/
def readToken (first : Char) (rest : List Char) :
    Except (LexicalFault × Nat) (TokenKind × Nat) :=
  match TokenKind.ofPunctuation? first with
  | some kind => .ok (kind, 0)
  | none =>
    if first.isDigit then
      match readNumeral (first :: rest) with
      | .ok (kind, length) => .ok (kind, length - 1)
      | .error spelling => .error (.malformedNumber (String.ofList spelling), 0)
    else if first = '"' then
      match TextLiteral.read rest with
      | .ok (text, length) => .ok (.text (String.ofList text), length)
      | .error (fault, distance) => .error (.ofText fault, distance)
    else if first = '$' then
      let name := rest.takeWhile Char.isAlphanum
      if name.isEmpty then .error (.emptyRegister, 0)
      else .ok (.register (String.ofList ('$' :: name)), name.length)
    else if first = '.' then
      let name := rest.takeWhile isWordChar
      if name.isEmpty then .error (.emptyDirective, 0)
      else .ok (.directive (String.ofList ('.' :: name)), name.length)
    else if first.isAlpha || first = '_' then
      let name := rest.takeWhile isWordChar
      .ok (.identifier (String.ofList (first :: name)), name.length)
    else .error (.unexpectedCharacter first, 0)

/-- The tokens of the rest of a line, from a column on.  The first `inside` characters belong
to the token before and are passed over. -/
def lexFrom (row : Nat) : (column inside : Nat) → List Char → Except LexicalError (List Token)
  | column, _, [] => .ok [⟨.lineEnd, ⟨row, column⟩⟩]
  | column, inside + 1, _ :: rest => lexFrom row (column + 1) inside rest
  | column, 0, c :: rest =>
    if isBlank c then lexFrom row (column + 1) 0 rest
    else if c = '#' then .ok [⟨.lineEnd, ⟨row, column + (rest.length + 1)⟩⟩]
    else
      match readToken c rest with
      | .error (fault, distance) => .error ⟨fault, ⟨row, column + distance⟩⟩
      | .ok (kind, more) =>
        (lexFrom row (column + 1) more rest).map (⟨kind, ⟨row, column⟩⟩ :: ·)

def lexLine (row : Nat) (line : List Char) : Except LexicalError (List Token) :=
  lexFrom row 1 0 line

/-- The tokens of some lines, of which the first has the given number. -/
def lexLines : Nat → List (List Char) → Except LexicalError (List Token)
  | _, [] => .ok []
  | row, line :: lines =>
    match lexLine row line with
    | .error e => .error e
    | .ok tokens => (lexLines (row + 1) lines).map (tokens ++ ·)

def lex (source : String) : Except LexicalError (List Token) :=
  lexLines 1 (sourceLines source)

end MipsAssembly
