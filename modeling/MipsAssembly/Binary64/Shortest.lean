import MipsAssembly.Binary64

/-!
# The shortest decimal numeral of a magnitude

A magnitude is written with the fewest decimal digits that read back as the same magnitude;
among the numerals with that many digits the one nearest to the magnitude is taken.

For `1, 2, … 17` digits there is a grid of decimal numerals, and if any point of a grid reads
back then so does one of the two grid points around the magnitude.  Those two are tried on
each grid in turn.  If no grid has a point that reads back, the exact value is written.

## Main definitions

- `Decimal` — a row of digits and a power of ten.
- `Binary64.shortest` — the shortest decimal numeral of a magnitude.
-/

namespace MipsAssembly

/-- The number `digits * 10 ^ exponent`. -/
structure Decimal where
  digits : Nat
  /-- The power of ten that the last digit counts. -/
  exponent : Int
  deriving DecidableEq, Repr

namespace Decimal

/-- Move zeros from the end of the digits into the exponent. -/
def strip (d : Decimal) : Nat → Decimal
  | 0 => d
  | steps + 1 =>
    if d.digits % 10 = 0 ∧ d.digits ≠ 0 then strip ⟨d.digits / 10, d.exponent + 1⟩ steps else d

/-- The same number without zeros at the end of its digits. -/
def normal (d : Decimal) : Decimal :=
  d.strip (Numeral.decimal d.digits).length

end Decimal

namespace Binary64

/-- Which of two neighbours is written when a magnitude lies exactly between them. -/
inductive Tie where
  | up
  /-- The one whose last digit is even. -/
  | even
  deriving DecidableEq

/-- The number of digits before the point, or minus the number of zeros behind it: the least
power of ten that is greater than the magnitude. -/
def decimalWidth (m : Magnitude) : Int :=
  (Numeral.decimal (units m * Nat.pow 10 400 / unitsInOne)).length - 400

/-- The magnitude in units of `10 ^ exponent`, as a quotient. -/
def scaledBy (m : Magnitude) (exponent : Int) : Nat × Nat :=
  if 0 ≤ exponent then (units m, unitsInOne * Nat.pow 10 exponent.toNat)
  else (units m * Nat.pow 10 (-exponent).toNat, unitsInOne)

/-- The decimal numeral with the given power of ten that reads back as the magnitude, the
nearer one if two do. -/
def onGrid? (tie : Tie) (m : Magnitude) (exponent : Int) : Option Decimal :=
  let (numerator, denominator) := scaledBy m exponent
  let below := numerator / denominator
  let readsBack (digits : Nat) : Bool := nearestDecimal? digits exponent = some m
  let twice := 2 * (numerator % denominator)
  match readsBack below, readsBack (below + 1) with
  | true, false => some ⟨below, exponent⟩
  | false, true => some ⟨below + 1, exponent⟩
  | false, false => none
  | true, true =>
    if twice < denominator then some ⟨below, exponent⟩
    else if denominator < twice then some ⟨below + 1, exponent⟩
    else match tie with
      | .up => some ⟨below + 1, exponent⟩
      | .even => some ⟨below + below % 2, exponent⟩

/-- The exact value of a magnitude. -/
def exact (m : Magnitude) : Decimal :=
  ⟨units m * Nat.pow 5 1074, -1074⟩

/-- The decimal numeral with the fewest digits that reads back as the magnitude. -/
def shortest (tie : Tie) (m : Magnitude) : Decimal :=
  let width := decimalWidth m
  let grids := (List.range 17).map fun (n : Nat) => width - (n + 1)
  ((grids.findSome? (onGrid? tie m)).getD (exact m)).normal

end Binary64

end MipsAssembly
