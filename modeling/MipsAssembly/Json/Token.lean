import MipsAssembly.Binary64.Reading
import MipsAssembly.Json.Value

/-!
# Tokens of a JSON text

A JSON text is cut into brackets, braces, colons, commas, words, numbers and texts.  Cutting
stops at the first place that is not JSON.

Some faults of a number or a text matter only where its value is asked for.  A number may be
out of range and a text may hold half a surrogate pair; the token then carries the fault
instead of the value, and cutting goes on behind it.  A token that is broken off carries its
fault too, and is the last one.

## Main definitions

- `JsonToken` — a token.
- `JsonText.read` — the text behind an opening quote.
- `JsonNumeral.read` — the number at the start of a text.
- `jsonTokens` — the tokens of a text.
-/

namespace MipsAssembly

/-! ## Texts -/

namespace JsonText

/-- A part of a text between quotes: a character, or half a surrogate pair. -/
inductive Part where
  | char (c : Char)
  /-- Half a surrogate pair. -/
  | surrogate (code : Nat)
  deriving DecidableEq

/-- The first code of the second halves of surrogate pairs. -/
def secondHalf : Nat := 0xDC00

/-- The part with a code of four hexadecimal digits. -/
def Part.ofCode (code : Nat) : Part :=
  if 0xD800 ≤ code ∧ code < 0xE000 then surrogate code else char (Char.ofNat code)

/-- The character of a surrogate pair. -/
def pair (first second : Nat) : Char :=
  Char.ofNat (0x10000 + (first - 0xD800) * 0x400 + (second - secondHalf))

/-- The character that a backslash and the given one mean. -/
def unescape? : Char → Option Char
  | '"' => some '"'
  | '\\' => some '\\'
  | '/' => some '/'
  | 'b' => some '\x08'
  | 'f' => some '\x0c'
  | 'n' => some '\n'
  | 'r' => some '\r'
  | 't' => some '\t'
  | _ => none

/-- How many bytes of UTF-8 a text takes. -/
def utf8Length : List Char → Nat
  | [] => 0
  | c :: cs => c.utf8Size + utf8Length cs

/-- The parts of a text up to its closing quote, and how many characters they and the quote
take; or the parts up to a fault, and the fault. -/
def parts : List Char → List Part × Except JsonFault Nat
  | [] => ([], .error .truncated)
  | '"' :: _ => ([], .ok 1)
  | ['\\'] => ([], .error .truncated)
  | '\\' :: 'u' :: a :: b :: c :: d :: rest =>
    if [a, b, c, d].all isHexDigit then
      let (more, length) := parts rest
      (.ofCode (Numeral.value 16 [a, b, c, d]) :: more, length.map (· + 6))
    else ([], .error .malformed)
  | '\\' :: 'u' :: rest =>
    ([], .error (if 4 ≤ utf8Length rest then .malformed else .truncated))
  | '\\' :: e :: rest =>
    match unescape? e with
    | some c =>
      let (more, length) := parts rest
      (.char c :: more, length.map (· + 2))
    | none => ([], .error .malformed)
  | c :: rest =>
    if c.toNat < 0x20 then ([], .error .malformed)
    else
      let (more, length) := parts rest
      (.char c :: more, length.map (· + 1))

/-- Put the halves of surrogate pairs together, given the fault behind the parts if there is
one.  A half on its own is a fault. -/
def join (fault : Option JsonFault) : List Part → Except JsonFault (List Char)
  | [] =>
    match fault with
    | none => .ok []
    | some f => .error f
  | .char c :: rest => (join fault rest).map (c :: ·)
  | .surrogate first :: .surrogate second :: rest =>
    if first < secondHalf ∧ secondHalf ≤ second then
      (join fault rest).map (pair first second :: ·)
    else .error .malformed
  | [.surrogate first] =>
    if first < secondHalf then .error (fault.getD .malformed) else .error .malformed
  | .surrogate _ :: .char _ :: _ => .error .malformed

/-- The text behind an opening quote and how many characters it and the closing quote take.
Either may be a fault. -/
def read (cs : List Char) : Except JsonFault String × Except JsonFault Nat :=
  match parts cs with
  | (ps, .ok length) => ((join none ps).map String.ofList, .ok length)
  | (ps, .error f) => ((join (some f) ps).map String.ofList, .error f)

end JsonText

/-! ## Numbers -/

/-- The spelling of a number, part by part. -/
structure JsonNumeral where
  negative : Bool
  whole : List Char
  /-- The point and the digits behind it, or nothing. -/
  fraction : List Char
  /-- The letter `e`, a sign if any and the power of ten, or nothing. -/
  power : List Char
  deriving DecidableEq

namespace JsonNumeral

/-- The fault of a text where a digit has to come. -/
def missingDigit : List Char → JsonFault
  | [] => .truncated
  | _ => .malformed

/-- The digits at the start of a text, of which there has to be one. -/
def digits (cs : List Char) : Except JsonFault (List Char) :=
  let ds := cs.takeWhile Char.isDigit
  if ds.isEmpty then .error (missingDigit cs) else .ok ds

/-- The digits in front: a zero stands alone. -/
def readWhole (cs : List Char) : Except JsonFault (List Char) :=
  match digits cs with
  | .error f => .error f
  | .ok ds => if ds.head? = some '0' ∧ ds.length ≠ 1 then .error .malformed else .ok ds

/-- The fraction at the start of a text, if there is a point. -/
def readFraction : List Char → Except JsonFault (List Char)
  | '.' :: rest => (digits rest).map ('.' :: ·)
  | _ => .ok []

/-- The power of ten at the start of a text, if there is a letter `e`. -/
def readPower : List Char → Except JsonFault (List Char)
  | [] => .ok []
  | e :: rest =>
    if e = 'e' || e = 'E' then
      match rest with
      | '+' :: more => (digits more).map fun ds => e :: '+' :: ds
      | '-' :: more => (digits more).map fun ds => e :: '-' :: ds
      | _ => (digits rest).map (e :: ·)
    else .ok []

def length (n : JsonNumeral) : Nat :=
  n.negative.toNat + n.whole.length + n.fraction.length + n.power.length

def spelling (cs : List Char) : Except JsonFault JsonNumeral := do
  let negative : Bool := cs.head? = some '-'
  let cs := if negative then cs.drop 1 else cs
  let whole ← readWhole cs
  let cs := cs.drop whole.length
  let fraction ← readFraction cs
  let power ← readPower (cs.drop fraction.length)
  return ⟨negative, whole, fraction, power⟩

/-- A floating-point number, which has to be finite. -/
def finite (value : Binary64) : Except JsonFault Number :=
  if value.isFinite then .ok (.real value) else .error .malformed

/-- The number of a spelling.  Digits alone are an integer if it is at least `-2 ^ 63` and
less than `2 ^ 64`; any other number, and zero with a minus sign, is a floating-point
number. -/
def number (n : JsonNumeral) : Except JsonFault Number :=
  if n.fraction.isEmpty && n.power.isEmpty then
    let value := Numeral.value 10 n.whole
    let fits :=
      if n.negative then value ≠ 0 ∧ value ≤ integerBound else value < 2 * integerBound
    if fits then .ok (.integer (if n.negative then -value else value))
    else finite (.ofDecimal n.negative value 0)
  else
    match Binary64.readDecimal? n.negative (n.whole ++ n.fraction ++ n.power) with
    | some value => finite value
    | none => .error .malformed

end JsonNumeral

/-! ## Tokens -/

/-- A token of a JSON text. -/
inductive JsonToken where
  | openBrace
  | closeBrace
  | openBracket
  | closeBracket
  | colon
  | comma
  /-- One of the words `null`, `true` and `false`, as no truth value or one. -/
  | word (value : Except JsonFault (Option Bool))
  | number (value : Except JsonFault Number)
  | text (content : Except JsonFault String)
  /-- The place where cutting stops. -/
  | stop (fault : JsonFault)

namespace JsonToken

/-- The token that a single character makes on its own. -/
def ofPunctuation? : Char → Option JsonToken
  | '\x7b' => some openBrace
  | '\x7d' => some closeBrace
  | '[' => some openBracket
  | ']' => some closeBracket
  | ':' => some colon
  | ',' => some comma
  | _ => none

/-- The fault of a text that has to start with the given letters, if it does not. -/
def lettersFault? : (letters : List Char) → List Char → Option JsonFault
  | [], _ => none
  | _ :: _, [] => some .truncated
  | letter :: letters, c :: cs => if c = letter then lettersFault? letters cs else some .malformed

/-- The word whose first letter has been read, and how many letters follow. -/
def readWord (letters : List Char) (value : Option Bool) (cs : List Char) :
    List JsonToken × Except JsonFault Nat :=
  match lettersFault? letters cs with
  | none => ([word (.ok value)], .ok letters.length)
  | some f => ([word (.error f)], .error f)

/-- The tokens that start with the given character, and how many of the characters behind it
belong to them, or the fault that stops cutting behind them. -/
def read (first : Char) (rest : List Char) : List JsonToken × Except JsonFault Nat :=
  match ofPunctuation? first with
  | some token => ([token], .ok 0)
  | none =>
    if first = '"' then
      let (content, length) := JsonText.read rest
      ([text content], length)
    else if first.isDigit || first = '-' then
      match JsonNumeral.spelling (first :: rest) with
      | .ok numeral => ([number numeral.number], .ok (numeral.length - 1))
      | .error f => ([number (.error f)], .error .malformed)
    else if first = 'n' then readWord ['u', 'l', 'l'] none rest
    else if first = 't' then readWord ['r', 'u', 'e'] (some true) rest
    else if first = 'f' then readWord ['a', 'l', 's', 'e'] (some false) rest
    else ([], .error .malformed)

/-- The characters that JSON allows between tokens. -/
def isBlank (c : Char) : Bool :=
  c = ' ' || c = '\t' || c = '\n' || c = '\r'

/-- The tokens of a text.  The first `inside` characters belong to the token before and are
passed over. -/
def cut : (inside : Nat) → List Char → List JsonToken
  | _, [] => []
  | inside + 1, _ :: rest => cut inside rest
  | 0, c :: rest =>
    if isBlank c then cut 0 rest
    else
      match read c rest with
      | (tokens, .ok more) => tokens ++ cut more rest
      | (tokens, .error f) => tokens ++ [stop f]

end JsonToken

def jsonTokens (source : String) : List JsonToken :=
  JsonToken.cut 0 source.toList

end MipsAssembly
