import ReversePolish.Binary64.Nearest

/-!
# Numerals

A numeral is a sign, or none, and a magnitude: a name of infinity or NaN in any case, or decimal
digits with at most one point among or beside them and an optional exponent. Only ASCII digits
count. A numeral denotes the float nearest to its decimal (`Numeral.value`), however long it is.
-/

namespace ReversePolish

/-- What a numeral denotes apart from its sign. -/
inductive Magnitude
  | decimal (d : Decimal)
  | infinity
  | nan
deriving DecidableEq

structure Numeral where
  negative : Bool
  magnitude : Magnitude
deriving DecidableEq

namespace Numeral

inductive Defect
  | empty
  | malformed
deriving DecidableEq

def Defect.text : Defect → String
  | .empty => "cannot parse float from empty string"
  | .malformed => "invalid float literal"

/-- Takes one sign off, and says whether it was a minus. -/
def splitSign : List Char → Bool × List Char
  | '-' :: s => (true, s)
  | '+' :: s => (false, s)
  | s => (false, s)

def splitDigits (s : List Char) : List Char × List Char :=
  (s.takeWhile Char.isDigit, s.dropWhile Char.isDigit)

theorem splitDigits_append (s : List Char) : (splitDigits s).1 ++ (splitDigits s).2 = s :=
  List.takeWhile_append_dropWhile

theorem isDigit_of_mem_splitDigits {s : List Char} {c : Char} (h : c ∈ (splitDigits s).1) :
    c.isDigit = true := by
  have := List.all_takeWhile (p := Char.isDigit) (l := s)
  exact List.all_eq_true.1 this c h

/-- The digits behind a point, if the text opens with one, and the rest. -/
def splitFraction : List Char → List Char × List Char
  | '.' :: s => splitDigits s
  | s => ([], s)

/-- The exponent that a whole text spells, behind its letter; no text means zero. -/
def exponent? : List Char → Option Int
  | [] => some 0
  | c :: s =>
    let (negative, digits) := splitSign s
    if (c = 'e' ∨ c = 'E') ∧ digits ≠ [] ∧ digits.all Char.isDigit then
      some (if negative then -(Decimal.ofDigits digits : Int) else Decimal.ofDigits digits)
    else none

def decimal? (s : List Char) : Option Decimal :=
  let (whole, s) := splitDigits s
  let (fraction, s) := splitFraction s
  if whole ++ fraction = [] then none
  else (exponent? s).map fun e => ⟨Decimal.ofDigits (whole ++ fraction), e - fraction.length⟩

def named? : List Char → Option Magnitude
  | ['i', 'n', 'f'] | ['i', 'n', 'f', 'i', 'n', 'i', 't', 'y'] => some .infinity
  | ['n', 'a', 'n'] => some .nan
  | _ => none

def magnitude? (s : List Char) : Option Magnitude :=
  ((decimal? s).map .decimal).or (named? (s.map Char.toLower))

/-- The numeral that a whole text spells, or what is wrong with it. -/
def read (s : List Char) : Except Defect Numeral :=
  if s = [] then .error .empty
  else
    let (negative, magnitude) := splitSign s
    match magnitude? magnitude with
    | some m => .ok ⟨negative, m⟩
    | none => .error .malformed

def value (n : Numeral) : Float :=
  match n.magnitude with
  | .decimal d => Binary64.ofCode n.negative (Binary64.ofDecimal d)
  | .infinity => Binary64.ofCode n.negative Binary64.infinityCode
  | .nan => Binary64.nan

end Numeral

end ReversePolish
