import ReversePolish.Journal
import ReversePolish.Text.Blank

/-!
# The machine

A stack of operands, and the evaluation of a phrase on it, word by word. A missing operand reads
as zero, a rejected word is noted and passed over, and a word that asks for the end leaves the
rest of the phrase unread.
-/

namespace ReversePolish

structure Machine where
  /-- the operands, the last one pushed first -/
  pending : List Float

namespace Machine

def empty : Machine := ⟨[]⟩

/-- The operands, the first one pushed first. -/
def operands (m : Machine) : List Float := m.pending.reverse

def depth (m : Machine) : Nat := m.pending.length

def top? (m : Machine) : Option Float := m.pending.head?

/-- The top, with zero for a missing operand. -/
def top (m : Machine) : Float := m.top?.getD Binary64.zero

/-- The machine without its top; without operands there is nothing to drop. -/
def drop (m : Machine) : Machine := ⟨m.pending.tail⟩

/-- What is left of a phrase that was evaluated to its end: the top, or NaN. -/
def answer (m : Machine) : Float := m.top?.getD Binary64.nan

@[simp] theorem operands_empty : empty.operands = [] := rfl

theorem length_operands (m : Machine) : m.operands.length = m.depth := by
  simp [operands, depth]

theorem getLast?_operands (m : Machine) : m.operands.getLast? = m.top? := by
  simp [operands, top?]

theorem operands_drop (m : Machine) : m.drop.operands = m.operands.dropLast := by
  simp [operands, drop]

end Machine

structure Effect where
  machine : Machine
  entry? : Option Entry
  message : Message

namespace Machine

def push (m : Machine) (v : Float) : Effect where
  machine := ⟨v :: m.pending⟩
  entry? := some (.push v)
  message := .pushed v (m.depth + 1)

@[simp] theorem operands_push (m : Machine) (v : Float) :
    (m.push v).machine.operands = m.operands ++ [v] := by
  simp [operands, push]

def apply (m : Machine) (op : Operator) : Effect :=
  let rhs := m.top
  let lhs := m.drop.top
  let result := op.apply lhs rhs
  { machine := ⟨result :: m.drop.drop.pending⟩
    entry? := some (.apply lhs op rhs result)
    message := .applied lhs op rhs result }

theorem operands_apply (m : Machine) (op : Operator) :
    (m.apply op).machine.operands =
      m.operands.dropLast.dropLast ++ [op.apply m.drop.top m.top] := by
  simp [operands, apply, drop]

def clear (m : Machine) : Effect where
  machine := empty
  entry? := none
  message := .clearing m.depth

def resolve (m : Machine) : Constant → Float
  | .pi => Binary64.pi
  | .e => Binary64.e
  | .ans => m.top
  | .infinity => Binary64.infinity

/-- What a token does, unless it asks for the end. -/
def effect? (m : Machine) : Token → Option Effect
  | .terminate => none
  | .clear => some m.clear
  | .operator op => some (m.apply op)
  | .constant name negate => some (m.push (if negate then -m.resolve name else m.resolve name))
  | .number v => some (m.push v)

end Machine

structure Evaluation where
  machine : Machine
  trace : List Entry
  outcome : Outcome
  journal : List Message

/-- An evaluation with records of what went before it. -/
def Evaluation.after (ev : Evaluation) (trace : List Entry) (journal : List Message) :
    Evaluation :=
  { ev with trace := trace ++ ev.trace, journal := journal ++ ev.journal }

def wordsOf (p : String) : List String := (Text.words p.toList).map String.ofList

namespace Machine

def run (m : Machine) : List String → Evaluation
  | [] => ⟨m, [], .proceed m.answer, []⟩
  | w :: ws =>
    match Token.classify w with
    | .error defect => (m.run ws).after [.error ⟨w, defect⟩] [.rejected ⟨w, defect⟩]
    | .ok token =>
      match m.effect? token with
      | none => ⟨m, [], .terminate, [.token w token, .terminating w]⟩
      | some eff => (eff.machine.run ws).after eff.entry?.toList [.token w token, eff.message]

@[simp] theorem run_nil (m : Machine) : m.run [] = ⟨m, [], .proceed m.answer, []⟩ := rfl

/-- A run that writes its log as it goes: each message is weighed when it is told. -/
def runLogged (t : Threshold) (m : Machine) (log : List Message) : List String → Evaluation
  | [] => ⟨m, [], .proceed m.answer, log⟩
  | w :: ws =>
    match Token.classify w with
    | .error defect =>
      (m.runLogged t (t.note log (.rejected ⟨w, defect⟩)) ws).after [.error ⟨w, defect⟩] []
    | .ok token =>
      let log := t.note log (.token w token)
      match m.effect? token with
      | none => ⟨m, [], .terminate, t.note log (.terminating w)⟩
      | some eff => (eff.machine.runLogged t (t.note log eff.message) ws).after eff.entry?.toList []

def eval (m : Machine) (phrase : String) : Evaluation := m.run (wordsOf phrase)

def evalLogged (t : Threshold) (m : Machine) (phrase : String) : Evaluation :=
  m.runLogged t [] (wordsOf phrase)

def prompt (m : Machine) : String :=
  "|".intercalate (m.operands.map showFloat) ++ ">"

end Machine

end ReversePolish
