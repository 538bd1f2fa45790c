import ReversePolish.Machine

/-!
# Calls

A caller evaluates phrases on a machine, or clears it, one call after another. Each call is answered
with its records and the machine that it left.
-/

namespace ReversePolish

inductive Call
  | eval (phrase : String)
  | clear

/-- What a call is answered with. Only an evaluation has an outcome. -/
structure Reply where
  machine : Machine
  trace : List Entry
  outcome? : Option Outcome
  journal : List Message

namespace Machine

def call (m : Machine) : Call → Reply
  | .eval p =>
    let ev := m.eval p
    ⟨ev.machine, ev.trace, some ev.outcome, ev.journal⟩
  | .clear =>
    let eff := m.clear
    ⟨eff.machine, eff.entry?.toList, none, [eff.message]⟩

def calls (m : Machine) : List Call → List Reply
  | [] => []
  | c :: cs => m.call c :: (m.call c).machine.calls cs

/-- A call that writes its log as it goes. -/
def callLogged (t : Threshold) (m : Machine) : Call → Reply
  | .eval p =>
    let ev := m.evalLogged t p
    ⟨ev.machine, ev.trace, some ev.outcome, ev.journal⟩
  | .clear =>
    let eff := m.clear
    ⟨eff.machine, eff.entry?.toList, none, t.note [] eff.message⟩

def callsLogged (t : Threshold) (m : Machine) : List Call → List Reply
  | [] => []
  | c :: cs => m.callLogged t c :: (m.callLogged t c).machine.callsLogged t cs

def afterCalls (m : Machine) (cs : List Call) : Machine :=
  cs.foldl (fun n c => (n.call c).machine) m

theorem calls_append (m : Machine) (cs ds : List Call) :
    m.calls (cs ++ ds) = m.calls cs ++ (m.afterCalls cs).calls ds := by
  induction cs generalizing m with
  | nil => rfl
  | cons c cs ih => exact congrArg (_ :: ·) (ih (m.call c).machine)

end Machine

end ReversePolish
