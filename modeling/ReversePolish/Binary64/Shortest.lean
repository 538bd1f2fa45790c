import ReversePolish.Binary64.Basic
import ReversePolish.Decimal.Basic

/-!
# The shortest decimal of a float

The reals that round to a float form an interval around it, from halfway to the float below to
halfway to the float above, with both ends if the code is even and with none if it is odd. The
shortest decimal is found on the coarsest grid of powers of ten with a positive multiple in that
interval, and is the multiple nearest to the float, the greater of two.

Grids are nested, so none coarser than a missed one hits. Grid `g` holds the multiples of
`10 ^ (g - 324)`. Everything is measured in units of `10 ^ -324 * 2 ^ -1075`, in which the ends of
each interval, the float and the grids are whole numbers.
-/

namespace ReversePolish.Binary64

open ReversePolish (Decimal)

/-- The reals that round to one float, and the float itself. -/
structure Cell where
  lower : Nat
  center : Nat
  upper : Nat
  closed : Bool

namespace Cell

/-- The exponent of the finest grid, below zero. -/
def depth : Nat := 324

def ofCode (c : Nat) : Cell where
  lower := (units (c - 1) + units c) * Decimal.tenTo depth
  center := 2 * units c * Decimal.tenTo depth
  upper := (units c + units (c + 1)) * Decimal.tenTo depth
  closed := c % 2 == 0

/-- Whether a real of the cell's units rounds to its float. -/
def contains (cell : Cell) (n : Nat) : Bool :=
  if cell.closed then cell.lower ≤ n && n ≤ cell.upper else cell.lower < n && n < cell.upper

def step (g : Nat) : Nat := Decimal.tenTo g <<< 1075

/-- Of the two multiples of a step next to the center, the positive ones in the cell, and of two
the nearer, the greater on a tie. -/
def multiple? (cell : Cell) (step : Nat) : Option Nat :=
  let q := cell.center / step
  let below := 0 < q && cell.contains (q * step)
  let above := cell.contains ((q + 1) * step)
  if below && !(above && (2 * q + 1) * step ≤ 2 * cell.center) then some q
  else if above then some (q + 1)
  else none

/-- The multiple on the coarsest grid, from grid `g` down, that has one in the cell. The finest
grid has one in every cell, for its step is less than half the least spacing of floats. -/
def coarsest (cell : Cell) : Nat → Decimal
  | 0 => ⟨(cell.multiple? (step 0)).getD 0, -depth⟩
  | g + 1 =>
    match cell.multiple? (step (g + 1)) with
    | some d => ⟨d, (g + 1 : Nat) - (depth : Int)⟩
    | none => cell.coarsest g

/-- A grid whose step is beyond the cell, as `10 ^ 4` is more than `2 ^ 13`. -/
def tooCoarse (cell : Cell) : Nat := 4 * ((cell.upper >>> 1075).log2 / 13 + 1)

end Cell

/-- The shortest decimal that rounds to a positive finite code, the nearest of those. -/
def shortest (c : Nat) : Decimal :=
  let cell := Cell.ofCode c
  cell.coarsest cell.tooCoarse

end ReversePolish.Binary64
