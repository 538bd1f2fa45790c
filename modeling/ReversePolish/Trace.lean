import ReversePolish.Token
import ReversePolish.Text.Quoted

/-!
# Traces

An evaluation leaves one entry for each operand pushed, each operator applied and each word
rejected. An entry has a text, in which a rejected word stands as it was spelled, and a
description, in which it is quoted. Entries are compared as floats are: NaN differs from itself
and the two zeros are equal.
-/

namespace ReversePolish

structure Rejection where
  word : String
  defect : Numeral.Defect
deriving DecidableEq

namespace Rejection

def text (r : Rejection) : String :=
  "'" ++ r.word ++ "' is not a number (" ++ r.defect.text ++ ")"

def defectName : Numeral.Defect → String
  | .empty => "Empty"
  | .malformed => "Invalid"

def description (r : Rejection) : String :=
  "InvalidNumber(" ++ Text.Quoted.quote r.word ++ ", ParseFloatError \x7b kind: " ++
    defectName r.defect ++ " \x7d)"

end Rejection

inductive Entry
  | push (value : Float)
  | apply (lhs : Float) (op : Operator) (rhs result : Float)
  | error (rejection : Rejection)

namespace Entry

/-- Entries are equal if their words are, and their floats as floats. -/
def beq : Entry → Entry → Bool
  | push v, push w => v == w
  | apply l op r x, apply l' op' r' x' => l == l' && op == op' && r == r' && x == x'
  | error r, error r' => r == r'
  | _, _ => false

instance : BEq Entry := ⟨beq⟩

def text : Entry → String
  | push v => "Pushing " ++ showFloat v
  | apply l op r x =>
    "Pushing " ++ showFloat l ++ " " ++ op.symbol ++ " " ++ showFloat r ++ " = " ++ showFloat x
  | error r => "Error: " ++ r.text

def description : Entry → String
  | push v => "Push(" ++ Layout.diagnostic.text v ++ ")"
  | apply l op r x =>
    "Apply \x7b lhs: " ++ Layout.diagnostic.text l ++ ", operator: " ++ op.name ++ ", rhs: " ++
      Layout.diagnostic.text r ++ ", result: " ++ Layout.diagnostic.text x ++ " \x7d"
  | error r => "Error(" ++ r.description ++ ")"

end Entry

inductive Outcome
  | proceed (answer : Float)
  | terminate

namespace Outcome

def beq : Outcome → Outcome → Bool
  | proceed v, proceed w => v == w
  | terminate, terminate => true
  | _, _ => false

instance : BEq Outcome := ⟨beq⟩

def description : Outcome → String
  | proceed v => "Continue(" ++ Layout.diagnostic.text v ++ ")"
  | terminate => "Terminate"

end Outcome

end ReversePolish
