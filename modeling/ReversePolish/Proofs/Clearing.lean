import ReversePolish.Calls
import ReversePolish.Proofs.Concatenation

/-!
# Clearing

A clearing leaves an empty machine, whatever was on it, so what follows runs as on a new one. The
one thing that still tells of the past is the count of operands in the message of the first
clearing.
-/

namespace ReversePolish

/-- So many operands cleared, and then nothing, again and again. -/
def clearedCounts (n k : Nat) : List Nat := n :: List.replicate k 0

def Message.ofClear (n : Nat) : List Message := [.token "clear" .clear, .clearing n]

def Reply.ofClear (n : Nat) : Reply := ⟨.empty, [], none, [.clearing n]⟩

namespace Machine

variable (m : Machine)

theorem not_terminator_clear : "clear" ∉ terminators := by decide

theorem run_clear_cons (ws : List String) :
    m.run ("clear" :: ws) = (empty.run ws).after [] (Message.ofClear m.depth) := by
  have hstep : m.step "clear" = ⟨empty, [], Message.ofClear m.depth⟩ :=
    step_of_effect (classify_eq_clear_iff.mpr rfl) rfl
  rw [run_cons not_terminator_clear, hstep]

theorem run_clears (k : Nat) (ws : List String) :
    m.run (List.replicate (k + 1) "clear" ++ ws) =
      (empty.run ws).after [] ((clearedCounts m.depth k).flatMap Message.ofClear) := by
  induction k generalizing m with
  | zero => exact m.run_clear_cons ws
  | succ k ih =>
    rw [List.replicate_succ, List.cons_append, run_clear_cons, ih, Evaluation.after_after]
    rfl

theorem calls_clears (k : Nat) (cs : List Call) :
    m.calls (List.replicate (k + 1) .clear ++ cs) =
      (clearedCounts m.depth k).map Reply.ofClear ++ empty.calls cs := by
  induction k generalizing m with
  | zero => rfl
  | succ k ih => exact congrArg (_ :: ·) (ih empty)

theorem eval_clears {q p s : String} {k : Nat} (hq : ∀ w ∈ wordsOf q, w ∉ terminators)
    (hs : wordsOf s = wordsOf q ++ (List.replicate (k + 1) "clear" ++ wordsOf p)) :
    m.eval s =
      (empty.eval p).after (m.eval q).trace ((m.eval q).journal ++
        (clearedCounts (m.eval q).machine.depth k).flatMap Message.ofClear) := by
  rw [eval_eq_run, hs, run_append_of_forall m hq, run_clears, Evaluation.after_after]
  simp only [List.append_nil, eval_eq_run]

/-- Behind a clearing, or several, a phrase does on every machine what it does on a new one: what
it leaves, what it answers, what it records and what it tells. The same goes for all calls behind a
call that clears. -/
theorem clearing_forgets (m n : Machine) {q p s : String} {k : Nat}
    (hq : ∀ w ∈ wordsOf q, w ∉ terminators)
    (hs : wordsOf s = wordsOf q ++ (List.replicate (k + 1) "clear" ++ wordsOf p)) :
    (m.eval s =
      (empty.eval p).after (m.eval q).trace ((m.eval q).journal ++
        (clearedCounts (m.eval q).machine.depth k).flatMap Message.ofClear)) ∧
    (m.eval s).machine = (n.eval s).machine ∧
    (m.eval s).outcome = (n.eval s).outcome ∧
    (m.eval s).trace.drop (m.eval q).trace.length =
      (n.eval s).trace.drop (n.eval q).trace.length ∧
    ∀ history later : List Call,
      m.calls (history ++ (List.replicate (k + 1) .clear ++ later)) =
        m.calls history ++ ((clearedCounts (m.afterCalls history).depth k).map Reply.ofClear ++
          empty.calls later) := by
  have hm := m.eval_clears hq hs
  have hn := n.eval_clears hq hs
  refine ⟨hm, ?_, ?_, ?_, ?_⟩
  · rw [hm, hn]
    rfl
  · rw [hm, hn]
    rfl
  · rw [hm, hn]
    simp [Evaluation.after]
  · intro history later
    rw [calls_append, calls_clears]

/-- What stood on the machine, and what was put there in front of two clearings, is not seen by an
operator behind them that finds one operand only. -/
theorem clearing_forgets_twice :
    (∀ w ∈ wordsOf "3 x", w ∉ terminators) ∧
    wordsOf "3 x clear\tclear ans -" =
      wordsOf "3 x" ++ (List.replicate (1 + 1) "clear" ++ wordsOf "ans -") ∧
    (Machine.eval ⟨[Binary64.pi]⟩ "3 x clear\tclear ans -").machine =
      (empty.eval "3 x clear\tclear ans -").machine ∧
    (Machine.eval ⟨[Binary64.pi]⟩ "3 x clear\tclear ans -").outcome =
      (empty.eval "3 x clear\tclear ans -").outcome := by
  have hq : ∀ w ∈ wordsOf "3 x", w ∉ terminators := by decide
  have hs : wordsOf "3 x clear\tclear ans -" =
      wordsOf "3 x" ++ (List.replicate (1 + 1) "clear" ++ wordsOf "ans -") := by decide
  obtain ⟨-, hmachine, houtcome, -, -⟩ := clearing_forgets ⟨[Binary64.pi]⟩ empty hq hs
  exact ⟨hq, hs, hmachine, houtcome⟩

end Machine

end ReversePolish
