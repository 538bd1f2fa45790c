import ReversePolish.Machine
import ReversePolish.Text.Backspace
import ReversePolish.Text.Lines

/-!
# Sessions

A session reads lines of bytes, each behind a prompt, evaluates what their backspaces leave of them
on one machine, and shows the trace and the answer of each. It ends where the input does, at a line
that asks for the end, at a line that is not UTF-8, or at one with a backspace that cannot be
applied, where the reader breaks off.
-/

namespace ReversePolish.Session

/-- One line read: the prompt before it, its trace, and its answer unless it asked for the end. -/
structure Block where
  prompt : String
  trace : List Entry
  answer? : Option Float

def line (s : String) : String := s ++ "\n"

/-- What is shown behind a prompt. -/
def Block.reply (b : Block) : String :=
  String.join (b.trace.map fun entry => line entry.text) ++
    String.join (b.answer?.toList.map fun v => line (showFloat v))

def Block.text (b : Block) : String := b.prompt ++ b.reply

inductive Ending
  | endOfInput
  | terminated
  /-- a line was not UTF-8 -/
  | unreadable
  /-- the backspaces of a line could not be applied -/
  | aborted
deriving DecidableEq

structure Transcript where
  blocks : List Block
  ending : Ending
  machine : Machine
  journal : List Message

def Transcript.after (t : Transcript) (b : Block) (journal : List Message) : Transcript :=
  { t with blocks := b :: t.blocks, journal := journal ++ t.journal }

/-- The phrase of a line: its characters without the terminator, with the backspaces applied. -/
def phrase? (s : String) : Option String :=
  (Text.erase? (Text.chomp s.toList)).map String.ofList

/-- The phrase that is heard of a line of bytes, or how the session ends there. -/
def hear (bytes : List UInt8) : Except Ending String :=
  match Text.decode bytes with
  | none => .error .unreadable
  | some s =>
    match phrase? s with
    | none => .error .aborted
    | some p => .ok p

section Hearing

variable {bytes : List UInt8} {s p : String}

theorem hear_of_decode_eq_none (hs : Text.decode bytes = none) :
    hear bytes = .error .unreadable := by
  rw [hear, hs]

theorem hear_of_phrase?_eq_none (hs : Text.decode bytes = some s) (hp : phrase? s = none) :
    hear bytes = .error .aborted := by
  simp only [hear, hs, hp]

theorem hear_of_phrase? (hs : Text.decode bytes = some s) (hp : phrase? s = some p) :
    hear bytes = .ok p := by
  simp only [hear, hs, hp]

theorem ending_of_hear {ending : Ending} (h : hear bytes = .error ending) :
    ending = .unreadable ∨ ending = .aborted := by
  unfold hear at h
  split at h
  · cases h
    exact Or.inl rfl
  · split at h
    · cases h
      exact Or.inr rfl
    · cases h

end Hearing

def block (m : Machine) (ev : Evaluation) : Block where
  prompt := m.prompt
  trace := ev.trace
  answer? :=
    match ev.outcome with
    | .proceed v => some v
    | .terminate => none

def run (m : Machine) : List (List UInt8) → Transcript
  | [] => ⟨[], .endOfInput, m, []⟩
  | bytes :: rest =>
    match hear bytes with
    | .error ending => ⟨[], ending, m, []⟩
    | .ok p =>
      let ev := m.eval p
      match ev.outcome with
      | .terminate => ⟨[block m ev], .terminated, ev.machine, ev.journal⟩
      | .proceed _ => (run ev.machine rest).after (block m ev) ev.journal

/-- The prompt that no line was read behind, unless a line asked for the end. -/
def lastPrompt (m : Machine) : Ending → String
  | .terminated => ""
  | .endOfInput | .unreadable | .aborted => m.prompt

/-- The message of the end, which a line that cannot be read cuts off. -/
def farewell (m : Machine) : Ending → List Message
  | .unreadable | .aborted => []
  | .endOfInput | .terminated => [.ended m.depth]

def Transcript.text (t : Transcript) : String :=
  String.join (t.blocks.map Block.text) ++ lastPrompt t.machine t.ending

end ReversePolish.Session
