import ReversePolish.Decimal.Layout
import ReversePolish.Numeral
import ReversePolish.Operator
import ReversePolish.Text.Fold

/-!
# Tokens

What a word means. Commands and operators are spelled exactly. A constant is spelled in any case,
with one sign or none. Every other word has to be a numeral.
-/

namespace ReversePolish

/-- A value with a name: three fixed ones, and the last answer. -/
inductive Constant
  | pi
  | e
  | ans
  | infinity
deriving DecidableEq, Repr

namespace Constant

def ofName? : String → Option Constant
  | "pi" => some pi
  | "e" => some e
  | "ans" => some ans
  | "infinity" => some infinity
  | _ => none

def name : Constant → String
  | pi => "Pi"
  | e => "E"
  | ans => "Ans"
  | infinity => "Infinity"

end Constant

inductive Token
  | terminate
  | clear
  | operator (op : Operator)
  | constant (name : Constant) (negate : Bool)
  | number (value : Float)
deriving DecidableEq

namespace Token

def command? : String → Option Token
  | "break" | "exit" | "quit" | "bye" => some terminate
  | "clear" => some clear
  | word => (Operator.ofSymbol? word).map operator

def constant? (word : String) : Option Token :=
  let (negate, bare) := Numeral.splitSign (Text.fold word.toList)
  (Constant.ofName? (String.ofList bare)).map (constant · negate)

/-- The meaning of a word, or what is wrong with it as a numeral. -/
def classify (word : String) : Except Numeral.Defect Token :=
  match (command? word).or (constant? word) with
  | some token => .ok token
  | none =>
    match Numeral.read word.toList with
    | .ok n => .ok (number n.value)
    | .error defect => .error defect

def description : Token → String
  | terminate => "Terminate"
  | clear => "Clear"
  | operator op => "Operator(" ++ op.name ++ ")"
  | constant name negate =>
    "Constant \x7b name: " ++ name.name ++ ", negate: " ++
      (if negate then "true" else "false") ++ " \x7d"
  | number value => "Number(" ++ Layout.diagnostic.text value ++ ")"

end Token

end ReversePolish
