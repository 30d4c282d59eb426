import MipsAssembly.Binary64

/-!
# Reading floating-point numbers

A decimal numeral stands for the nearest floating-point number.  It has digits, a point
among or beside them if any, and a power of ten behind them if any.

## Main definitions

- `Binary64.readDecimal?` — the number of a decimal numeral.
- `Binary64.ofText?` — the number of a text, which may also name an infinity or a NaN.
-/

namespace MipsAssembly

namespace Binary64

def readSign : List Char → Bool × List Char
  | '-' :: rest => (true, rest)
  | '+' :: rest => (false, rest)
  | cs => (false, cs)

/-- Read the power of ten behind a mantissa: nothing, or `e`, an optional sign and digits. -/
def readExponent? : List Char → Option Int
  | [] => some 0
  | e :: rest =>
    let (negative, digits) := readSign rest
    if (e = 'e' ∨ e = 'E') ∧ digits ≠ [] ∧ digits.all Char.isDigit then
      let power : Int := Numeral.value 10 digits
      some (if negative then -power else power)
    else none

/-- Read a decimal numeral without a sign; digits may be missing on one side of the point. -/
def readDecimal? (negative : Bool) (cs : List Char) : Option Binary64 :=
  let whole := cs.takeWhile Char.isDigit
  let afterWhole := cs.dropWhile Char.isDigit
  let (fraction, rest) : List Char × List Char :=
    match afterWhole with
    | '.' :: more => (more.takeWhile Char.isDigit, more.dropWhile Char.isDigit)
    | more => ([], more)
  if whole ++ fraction = [] then none
  else (readExponent? rest).map fun power =>
    ofDecimal negative (Numeral.value 10 (whole ++ fraction)) (power - fraction.length)

/-- The number that a text stands for: a decimal numeral, an infinity or a NaN, with an
optional sign and the words in any case. -/
def ofText? (text : String) : Option Binary64 :=
  let (negative, cs) := readSign text.toList
  let word := String.ofList (cs.map Char.toLower)
  if word = "inf" ∨ word = "infinity" then some (.infinite negative)
  else if word = "nan" then some .nan
  else readDecimal? negative cs

end Binary64

end MipsAssembly
