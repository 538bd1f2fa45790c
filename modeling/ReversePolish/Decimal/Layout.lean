import ReversePolish.Binary64.Shortest

/-!
# Written floats

A float is written with the digits of its shortest decimal, behind a minus sign if its sign bit is
set. A layout decides which numbers are written positionally and which with an exponent, and
whether a whole number shows a point. Infinity and NaN have names, and NaN no sign.
-/

namespace ReversePolish

structure Layout where
  /-- whether a whole number written positionally ends in a point and a zero -/
  pointZero : Bool
  /-- the exponents of the leading digit at which a number is written positionally -/
  positional : Int → Bool

namespace Layout

/-- Numbers as answers: positional at any size, and no point in a whole number. -/
def plain : Layout where
  pointZero := false
  positional _ := true

/-- Numbers in descriptions of values: positional from 10^-4 and below 10^16, and a point always. -/
def diagnostic : Layout where
  pointZero := true
  positional e := -5 < e && e < 16

def int : Int → List Char
  | .ofNat n => Nat.toDigits 10 n
  | .negSucc n => '-' :: Nat.toDigits 10 (n + 1)

def point (pointZero : Bool) (digits : List Char) : Int → List Char
  | .ofNat e => digits ++ List.replicate e '0' ++ if pointZero then ['.', '0'] else []
  | .negSucc k =>
    if digits.length ≤ k + 1 then
      '0' :: '.' :: List.replicate (k + 1 - digits.length) '0' ++ digits
    else
      digits.take (digits.length - (k + 1)) ++ '.' :: digits.drop (digits.length - (k + 1))

def scientific (digits : List Char) (leading : Int) : List Char :=
  let fraction := digits.drop 1
  digits.take 1 ++ (if fraction.isEmpty then [] else '.' :: fraction) ++ 'e' :: int leading

def decimal (layout : Layout) (d : Decimal) : List Char :=
  let digits := Nat.toDigits 10 d.digits
  if layout.positional d.leading then point layout.pointZero digits d.exponent
  else scientific digits d.leading

def magnitude (layout : Layout) (c : Nat) : List Char :=
  if c = Binary64.infinityCode then ['i', 'n', 'f']
  else layout.decimal (if c = 0 then ⟨0, 0⟩ else Binary64.shortest c)

def chars (layout : Layout) (x : Float) : List Char :=
  if Binary64.isNaN x then ['N', 'a', 'N']
  else if Binary64.negative x then '-' :: layout.magnitude (Binary64.code x)
  else layout.magnitude (Binary64.code x)

def text (layout : Layout) (x : Float) : String := String.ofList (layout.chars x)

end Layout

def showFloat (x : Float) : String := Layout.plain.text x

end ReversePolish
