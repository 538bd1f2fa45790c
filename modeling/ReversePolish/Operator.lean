/-!
# Operators

The five binary operations on floats and their symbols.
-/

namespace ReversePolish

inductive Operator
  | multiply
  | add
  | subtract
  | divide
  | power
deriving DecidableEq, Repr

namespace Operator

def apply : Operator → Float → Float → Float
  | multiply, lhs, rhs => lhs * rhs
  | add, lhs, rhs => lhs + rhs
  | subtract, lhs, rhs => lhs - rhs
  | divide, lhs, rhs => lhs / rhs
  | power, lhs, rhs => Float.pow lhs rhs

def symbol : Operator → String
  | multiply => "*"
  | add => "+"
  | subtract => "-"
  | divide => "/"
  | power => "^"

def ofSymbol? : String → Option Operator
  | "*" => some multiply
  | "+" => some add
  | "-" => some subtract
  | "/" => some divide
  | "^" => some power
  | _ => none

theorem ofSymbol?_symbol (op : Operator) : ofSymbol? op.symbol = some op := by
  cases op <;> rfl

def name : Operator → String
  | multiply => "Multiply"
  | add => "Add"
  | subtract => "Subtract"
  | divide => "Divide"
  | power => "Power"

end Operator

end ReversePolish
