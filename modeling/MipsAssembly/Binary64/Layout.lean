import MipsAssembly.Binary64.Shortest
import MipsAssembly.Text.Padding

/-!
# The text of a floating-point number

A finite number is written with its shortest digits, either positionally, with a point and at
least one digit on each side of it, or as one digit before the point and a power of ten.  A
`FloatLayout` says which magnitudes are written positionally, how the power of ten is
written and where a tie goes.

## Main definitions

- `FloatLayout` — the decisions of a written form.
- `Binary64.chars` — a number in a written form.
-/

namespace MipsAssembly

/-- The decisions of a written form of floating-point numbers. -/
structure FloatLayout where
  /-- The least power of ten of a first digit that is written positionally. -/
  least : Int
  /-- The least power of ten of a first digit that is no longer written positionally. -/
  limit : Int
  /-- Is a power of ten that is not negative written with a plus sign? -/
  plus : Bool
  /-- Which neighbour is written for a number exactly between two. -/
  tie : Binary64.Tie

namespace Decimal

/-- The power of ten of the first digit. -/
def leading (d : Decimal) : Int :=
  d.exponent + ((Numeral.decimal d.digits).length - 1 : Nat)

/-- The digits around a point, with zeros where digits are missing. -/
def positional (d : Decimal) : List Char :=
  let digits := Numeral.decimal d.digits
  if 0 ≤ d.exponent then
    digits ++ List.replicate d.exponent.toNat '0' ++ ['.', '0']
  else
    let places := (-d.exponent).toNat
    let padded := padLeft (places + 1) '0' digits
    padded.take (padded.length - places) ++ '.' :: padded.drop (padded.length - places)

/-- The first digit, the other digits behind a point, and the power of ten. -/
def scientific (plus : Bool) (d : Decimal) : List Char :=
  let digits := Numeral.decimal d.digits
  let rest := digits.drop 1
  let sign := if plus ∧ 0 ≤ d.leading then ['+'] else []
  digits.take 1 ++ (if rest = [] then [] else '.' :: rest) ++ 'e' :: sign
    ++ Numeral.signed d.leading

end Decimal

namespace Binary64

/-- A magnitude in a written form. -/
def magnitudeChars (layout : FloatLayout) (m : Magnitude) : List Char :=
  let d := shortest layout.tie m
  if m = zero then ['0', '.', '0']
  else if layout.least ≤ d.leading ∧ d.leading < layout.limit then d.positional
  else d.scientific layout.plus

def chars (layout : FloatLayout) : Binary64 → List Char
  | nan => ['N', 'a', 'N']
  | infinite false => ['i', 'n', 'f']
  | infinite true => ['-', 'i', 'n', 'f']
  | finite false m => magnitudeChars layout m
  | finite true m => '-' :: magnitudeChars layout m

end Binary64

end MipsAssembly
