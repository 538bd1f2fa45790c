import ReversePolish.Trace

/-!
# The journal

Besides its trace, an evaluation leaves messages for an observer, each with a level. A threshold
admits the messages of its level and of those more severe; without a threshold none is admitted.
-/

namespace ReversePolish

def programName : String := "rpncalc"

inductive Level
  | error
  | warn
  | info
  | debug
  | trace
deriving DecidableEq, Repr

namespace Level

def rank : Level → Nat
  | error => 0
  | warn => 1
  | info => 2
  | debug => 3
  | trace => 4

def name : Level → String
  | error => "ERROR"
  | warn => "WARN"
  | info => "INFO"
  | debug => "DEBUG"
  | trace => "TRACE"

end Level

/-- The least severe level of interest, if any is. -/
abbrev Threshold := Option Level

def Threshold.admits : Threshold → Level → Bool
  | none, _ => false
  | some least, level => level.rank ≤ least.rank

inductive Message
  /-- a word was understood -/
  | token (word : String) (token : Token)
  /-- a word was not understood -/
  | rejected (rejection : Rejection)
  /-- a word asked for the end -/
  | terminating (word : String)
  /-- all operands, so many, are about to go -/
  | clearing (count : Nat)
  /-- a value was pushed, to make a stack of this depth -/
  | pushed (value : Float) (depth : Nat)
  /-- an operator was applied -/
  | applied (lhs : Float) (op : Operator) (rhs result : Float)
  /-- a session ended with so many operands -/
  | ended (count : Nat)

namespace Message

def level : Message → Level
  | token .. | rejected .. => .debug
  | terminating .. | clearing .. | ended .. => .info
  | pushed .. | applied .. => .trace

def count (n : Nat) : String := String.ofList (Nat.toDigits 10 n)

def text : Message → String
  | token word t => "token '" ++ word ++ "' => " ++ t.description
  | rejected r => "rejected token '" ++ r.word ++ "': " ++ r.text
  | terminating word => "termination requested by '" ++ word ++ "'"
  | clearing n => "clearing " ++ count n ++ " operand(s)"
  | pushed v depth => "push " ++ showFloat v ++ " (depth " ++ count depth ++ ")"
  | applied l op r x =>
    showFloat l ++ " " ++ op.symbol ++ " " ++ showFloat r ++ " = " ++ showFloat x
  | ended n => "session ended with " ++ count n ++ " operand(s)"

end Message

def Threshold.filter (t : Threshold) (journal : List Message) : List Message :=
  List.filter (fun m => t.admits m.level) journal

def Threshold.note (t : Threshold) (log : List Message) (msg : Message) : List Message :=
  if t.admits msg.level then log ++ [msg] else log

theorem Threshold.filter_trace (journal : List Message) :
    Threshold.filter (some .trace) journal = journal := by
  apply List.filter_eq_self.mpr
  intro m _
  cases m <;> rfl

end ReversePolish
