/-!
# Decimals

A natural number of units of a power of ten, its digits in base ten and the number that a list of
digits spells.
-/

namespace ReversePolish

/-- The number `digits * 10 ^ exponent`. -/
structure Decimal where
  digits : Nat
  exponent : Int
deriving DecidableEq, Repr

namespace Decimal

def tenTo (n : Nat) : Nat := Nat.pow 10 n

/-- The number of digits of a positive number, and 1 for zero. -/
def digitCount (n : Nat) : Nat := (Nat.toDigits 10 n).length

/-- The exponent of the leading digit. -/
def leading (d : Decimal) : Int := d.exponent + digitCount d.digits - 1

/-- The number that a list of digits spells, the most significant first. -/
def ofDigits (ds : List Char) : Nat := Nat.ofDigitChars 10 ds 0

end Decimal

end ReversePolish
