import MipsAssembly.Numeral

/-!
# Binary floating-point numbers of 64 bits

A `Binary64` is a NaN, an infinity or a finite number.  The magnitudes of the finite numbers
are numbered in increasing order from zero: the number `m` of a magnitude is the bit pattern
of the positive number without its sign.  All arithmetic is exact arithmetic on natural
numbers, in units of the smallest positive magnitude, `2 ^ -1074`.

## Main definitions

- `Binary64.units` — how many units a magnitude has.
- `Binary64.nearest?` — the magnitude nearest to a quotient, ties to even; none if the
  quotient is rounded beyond the greatest magnitude.
- `Binary64.ofDecimal` — the number that a decimal numeral stands for.
- `Binary64.sameValue` — equality of values, under which the two zeros are equal and a NaN
  differs from itself.
-/

namespace MipsAssembly

namespace Binary64

/-- How many magnitudes there are from one power of two up to the next. -/
def binade : Nat := Nat.pow 2 52

/-- How many units make one. -/
def unitsInOne : Nat := Nat.pow 2 1074

/-- How many finite magnitudes there are. -/
def magnitudes : Nat := 2047 * binade

/-- A finite magnitude, by its place in increasing order. -/
abbrev Magnitude := Fin magnitudes

end Binary64

/-- A binary floating-point number of 64 bits, without the payload of a NaN. -/
inductive Binary64 where
  | nan
  | infinite (negative : Bool)
  | finite (negative : Bool) (magnitude : Binary64.Magnitude)
  deriving DecidableEq

namespace Binary64

def zero : Magnitude := ⟨0, by decide⟩

instance : Inhabited Binary64 := ⟨.finite false zero⟩

def negate : Binary64 → Binary64
  | nan => nan
  | infinite negative => infinite (!negative)
  | finite negative magnitude => finite (!negative) magnitude

def isFinite : Binary64 → Bool
  | finite _ _ => true
  | _ => false

/-- Equality of values: the zeros are equal, a NaN is equal to nothing. -/
def sameValue : Binary64 → Binary64 → Bool
  | infinite s, infinite t => s = t
  | finite s m, finite t n => m = n && (s = t || m.val = 0)
  | _, _ => false

/-- A magnitude counted in units of `2 ^ -1074`.  The first `2 ^ 53` magnitudes are one unit
apart; from there on the distance doubles every `2 ^ 52` magnitudes. -/
def units (m : Magnitude) : Nat :=
  let doublings := m.val / binade - 1
  (m.val - doublings * binade) * Nat.pow 2 doublings

/-- The natural number nearest to a quotient, a tie going to the even neighbour. -/
def roundQuotient (numerator denominator : Nat) : Nat :=
  let floor := numerator / denominator
  let twice := 2 * (numerator % denominator)
  if twice < denominator then floor
  else if denominator < twice then floor + 1
  else floor + floor % 2

/-- The place of the magnitude nearest to a quotient, if magnitudes went on without end. -/
def nearestPlace (numerator denominator : Nat) : Nat :=
  let scaled := numerator * unitsInOne
  let doublings := Nat.log2 (scaled / denominator) - 52
  doublings * binade + roundQuotient scaled (denominator * Nat.pow 2 doublings)

/-- The magnitude nearest to a quotient, or none if it is beyond the greatest one. -/
def nearest? (numerator denominator : Nat) : Option Magnitude :=
  let place := nearestPlace numerator denominator
  if h : place < magnitudes then some ⟨place, h⟩ else none

/-- Decimal numerals at or above ten to this power are beyond the greatest magnitude, and
those below its reciprocal are rounded to zero. -/
def exponentBound : Int := 400

/-- The magnitude nearest to `digits * 10 ^ exponent`, or none beyond the greatest one. -/
def nearestDecimal? (digits : Nat) (exponent : Int) : Option Magnitude :=
  let width : Int := (Numeral.decimal digits).length
  if digits = 0 then some zero
  else if exponentBound < width + exponent then none
  else if width + exponent < -exponentBound then some zero
  else if 0 ≤ exponent then nearest? (digits * Nat.pow 10 exponent.toNat) 1
  else nearest? digits (Nat.pow 10 (-exponent).toNat)

/-- The number nearest to `digits * 10 ^ exponent`, with a sign; beyond the greatest
magnitude it is an infinity. -/
def ofDecimal (negative : Bool) (digits : Nat) (exponent : Int) : Binary64 :=
  match nearestDecimal? digits exponent with
  | some magnitude => .finite negative magnitude
  | none => .infinite negative

end Binary64

end MipsAssembly
