import MipsAssembly.Binary64.Reading
import MipsAssembly.Token

/-!
# Numerals in source text

A numeral starts with a digit.  Behind `0x` or `0X` it is a row of hexadecimal digits;
otherwise it is the longest text of the form: digits, then a point and digits if any, then
`e` and a power of ten if any.  No letter, digit, point or underscore may follow.

An integer has to be below `2 ^ 63`.  A numeral with a point or a power of ten stands for the
nearest floating-point number, which has to be finite.

## Main definitions

- `DecimalNumeral` — the parts of a decimal numeral; `DecimalNumeral.longest` cuts it off.
- `readNumeral` — the token of the numeral at the start of a text, and its length.
-/

namespace MipsAssembly

/-- The characters that words are made of: ASCII letters and digits, `_` and `.`. -/
def isWordChar (c : Char) : Bool :=
  c.isAlphanum || c = '_' || c = '.'

/-- The spelling of a decimal numeral, part by part. -/
structure DecimalNumeral where
  whole : List Char
  /-- The point and the digits behind it, or nothing. -/
  fraction : List Char
  /-- The letter `e`, a sign if any and the power of ten, or nothing. -/
  power : List Char
  deriving DecidableEq

namespace DecimalNumeral

/-- The fraction at the start of a text: a point counts only with a digit behind it. -/
def fractionOf : List Char → List Char
  | '.' :: rest =>
    let digits := rest.takeWhile Char.isDigit
    if digits.isEmpty then [] else '.' :: digits
  | _ => []

/-- The sign at the start of a text. -/
def signOf : List Char → List Char
  | '+' :: _ => ['+']
  | '-' :: _ => ['-']
  | _ => []

/-- The power of ten at the start of a text: the letter counts only with a digit behind it or
behind its sign. -/
def powerOf : List Char → List Char
  | e :: rest =>
    let sign := signOf rest
    let digits := (rest.drop sign.length).takeWhile Char.isDigit
    if (e = 'e' || e = 'E') && !digits.isEmpty then e :: (sign ++ digits) else []
  | [] => []

/-- The longest decimal numeral at the start of a text. -/
def longest (cs : List Char) : DecimalNumeral :=
  let whole := cs.takeWhile Char.isDigit
  let fraction := fractionOf (cs.drop whole.length)
  let power := powerOf (cs.drop (whole.length + fraction.length))
  ⟨whole, fraction, power⟩

def spelling (n : DecimalNumeral) : List Char :=
  n.whole ++ n.fraction ++ n.power

/-- The number that a numeral stands for, if it is in range. -/
def number? (n : DecimalNumeral) : Option Number :=
  if n.fraction.isEmpty && n.power.isEmpty then
    let value := Numeral.value 10 n.whole
    if value < integerBound then some (.integer value) else none
  else
    match Binary64.readDecimal? false n.spelling with
    | some value => if value.isFinite then some (.real value) else none
    | none => none

end DecimalNumeral

/-- The token of the hexadecimal numeral whose digits start a text, and how many digits it
has; or the spelling to complain about. -/
def readHexadecimal (cs : List Char) : Except (List Char) (TokenKind × Nat) :=
  let digits := cs.takeWhile isHexDigit
  let tail := (cs.drop digits.length).takeWhile isWordChar
  let value := Numeral.value 16 digits
  if digits.isEmpty || !tail.isEmpty || integerBound ≤ value then
    .error ('0' :: 'x' :: (digits ++ tail))
  else .ok (.number .hexadecimal (.integer value), digits.length)

/-- The token of the decimal numeral that starts a text, and its length; or the spelling to
complain about. -/
def readDecimal (cs : List Char) : Except (List Char) (TokenKind × Nat) :=
  let numeral := DecimalNumeral.longest cs
  let spelling := numeral.spelling
  let tail := (cs.drop spelling.length).takeWhile isWordChar
  match numeral.number? with
  | some value =>
    if tail.isEmpty then .ok (.number .decimal value, spelling.length)
    else .error (spelling ++ tail)
  | none => .error (spelling ++ tail)

/-- The token of the numeral that starts a text, and its length; or the spelling to complain
about. -/
def readNumeral : List Char → Except (List Char) (TokenKind × Nat)
  | '0' :: 'x' :: rest => (readHexadecimal rest).map fun (kind, length) => (kind, length + 2)
  | '0' :: 'X' :: rest => (readHexadecimal rest).map fun (kind, length) => (kind, length + 2)
  | cs => readDecimal cs

end MipsAssembly
