/-!
# Positional numerals

Digits in base ten and base sixteen, read and written.  `Numeral.value` gives the number that
a row of digits stands for; `Numeral.decimal` and `Numeral.hexadecimal` write a number with
the fewest digits.

Only ASCII digits count as digits.
-/

namespace MipsAssembly

/-- An ASCII hexadecimal digit, in either case. -/
def isHexDigit (c : Char) : Bool :=
  c.isDigit || ('a' ≤ c && c ≤ 'f') || ('A' ≤ c && c ≤ 'F')

namespace Numeral

/-- What a single digit is worth, hexadecimal digits in either case included. -/
def digitValue (c : Char) : Nat :=
  if c ≤ '9' then c.toNat - '0'.toNat
  else if c ≤ 'F' then c.toNat - 'A'.toNat + 10
  else c.toNat - 'a'.toNat + 10

/-- The number that a row of digits stands for. -/
def value (base : Nat) (digits : List Char) : Nat :=
  digits.foldl (fun n c => base * n + digitValue c) 0

def decimal (n : Nat) : List Char :=
  Nat.toDigits 10 n

/-- A number in base sixteen, with capital letters. -/
def hexadecimal (n : Nat) : List Char :=
  (Nat.toDigits 16 n).map Char.toUpper

/-- A number in base sixteen, with small letters. -/
def smallHexadecimal (n : Nat) : List Char :=
  Nat.toDigits 16 n

/-- An integer in base ten, a minus sign in front of a negative one. -/
def signed (i : Int) : List Char :=
  if i < 0 then '-' :: decimal i.natAbs else decimal i.natAbs

end Numeral

end MipsAssembly
