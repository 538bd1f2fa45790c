/-!
# Floats as a sign and a code

The bits of a float below its sign bit, read as a natural number, are its code. Codes ascend with
the absolute value, the code of infinity is the least that is no number's, and NaN has a greater
one. The value of a finite code is a whole number of units of 2^-1074, the least positive float.
-/

namespace ReversePolish.Binary64

/-- The code of infinity: all exponent bits set, no bit of the significand. -/
def infinityCode : Nat := 0x7FF0000000000000

/-- The weight of the sign bit, 2^63. -/
def signWeight : Nat := 0x8000000000000000

/-- The weight of the lowest exponent bit, 2^52: so many codes have one exponent. -/
def binade : Nat := 0x10000000000000

/-- The bits below the sign. -/
def code (x : Float) : Nat := x.toBits.toNat % signWeight

def negative (x : Float) : Bool := signWeight ≤ x.toBits.toNat

def isNaN (x : Float) : Bool := infinityCode < code x

def ofCode (negative : Bool) (c : Nat) : Float :=
  Float.ofBits (UInt64.ofNat (c + if negative then signWeight else 0))

/-- The value of a code in units of 2^-1074: the significand, shifted by the exponent. -/
def units (c : Nat) : Nat :=
  if c / binade = 0 then c % binade else (binade + c % binade) <<< (c / binade - 1)

/-- The result of an invalid operation, and of asking an empty stack for its top. -/
def nan : Float := Float.ofBits 0x7FF8000000000000

def zero : Float := ofCode false 0

def infinity : Float := ofCode false infinityCode

/-- The float nearest to the ratio of a circle's circumference to its diameter. -/
def pi : Float := Float.ofBits 0x400921FB54442D18

/-- The float nearest to the base of the natural logarithm. -/
def e : Float := Float.ofBits 0x4005BF0A8B145769

end ReversePolish.Binary64
