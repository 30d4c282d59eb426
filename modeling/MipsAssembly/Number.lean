import MipsAssembly.Binary64.Layout

/-!
# Numbers in source text

A `Number` is an integer or a floating-point number, as it was written and never folded into
another.  A `Radix` tells in which base a numeral is written; only integers are ever written
in base sixteen.

`Number.negate` moves the sign of a literal into its value.
-/

namespace MipsAssembly

/-- The base in which a numeral is written. -/
inductive Radix where
  /-- Base ten, `42` or `230.5`. -/
  | decimal
  /-- Base sixteen, `0x2A`. -/
  | hexadecimal
  deriving DecidableEq, Repr

namespace Radix

def name : Radix → String
  | decimal => "decimal"
  | hexadecimal => "hex"

def ofName? : String → Option Radix
  | "decimal" => some decimal
  | "hex" => some hexadecimal
  | _ => none

theorem ofName?_name (radix : Radix) : ofName? radix.name = some radix := by
  cases radix <;> rfl

end Radix

/-- The value of a numeral. -/
inductive Number where
  | integer (value : Int)
  | real (value : Binary64)
  deriving DecidableEq

namespace Number

def negate : Number → Number
  | integer value => integer (-value)
  | real value => real value.negate

/-- Equality of values: integers are never equal to floating-point numbers. -/
def sameValue : Number → Number → Bool
  | integer i, integer j => i = j
  | real x, real y => x.sameValue y
  | _, _ => false

/-- Floating-point numbers in source text are positional from `0.0001` up to `10 ^ 16`; a
number exactly between two candidates is rounded up. -/
def sourceLayout : FloatLayout where
  least := -4
  limit := 16
  plus := false
  tie := .up

/-- A number in source text, an integer in base ten. -/
def chars : Number → List Char
  | integer value => Numeral.signed value
  | real value => value.chars sourceLayout

/-- A number in source text, in the radix of its numeral. -/
def charsIn : Radix → Number → List Char
  | .hexadecimal, integer value =>
    let digits := '0' :: 'x' :: Numeral.hexadecimal value.natAbs
    if value < 0 then '-' :: digits else digits
  | _, number => number.chars

end Number

/-- The integers of 64 bits with a sign are below this bound and not below its negative. -/
def integerBound : Nat := Nat.pow 2 63

/-- The integers that fit 64 bits with a sign. -/
def fits64 (i : Int) : Bool :=
  -(integerBound : Int) ≤ i && i < integerBound

end MipsAssembly
