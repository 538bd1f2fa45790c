import ReversePolish.Binary64.Basic
import ReversePolish.Decimal.Basic

/-!
# Rounding to the nearest float

The code of the float nearest to a nonnegative ratio, ties to the even code. The ratio is taken in
units of 2^-1074 and rounded to a whole number of the spacing of floats at its size. That spacing
is `2 ^ t` units where the ratio has `53 + t` bits before the point, and one unit below that; each
doubling of it is `2 ^ 52` codes further, so the code is found by adding and no case is made of the
carry into the next binade. All that reaches the code of infinity is infinity.
-/

namespace ReversePolish.Binary64

def roundEven (num den : Nat) : Nat :=
  if 2 * (num % den) < den ∨ (2 * (num % den) = den ∧ num / den % 2 = 0) then num / den
  else num / den + 1

/-- The spacing of floats is `2 ^ spacing` units at a size of `n` units. -/
def spacing (n : Nat) : Nat := n.log2 - 52

def nearestCode (num den : Nat) : Nat :=
  let n := num <<< 1074
  let t := spacing (n / den)
  min infinityCode (t * binade + roundEven n (den <<< t))

/-- The code of the float nearest to a decimal. A decimal of at least 10^400 is beyond the largest
float, and one of `b` bits and at most `10 ^ -k` with `b + 1077 ≤ 3 * k` is below half the least,
so that no power is computed for them. -/
def ofDecimal (d : Decimal) : Nat :=
  match d.exponent with
  | .ofNat e =>
    if d.digits = 0 then 0
    else if 400 ≤ e then infinityCode
    else nearestCode (d.digits * Decimal.tenTo e) 1
  | .negSucc k =>
    if d.digits.log2 + 1077 ≤ 3 * (k + 1) then 0
    else nearestCode d.digits (Decimal.tenTo (k + 1))

end ReversePolish.Binary64
