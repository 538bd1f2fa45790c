import ReversePolish.Proofs.Concatenation
import ReversePolish.Proofs.Padding

/-!
# Operands out of reach

A run reads the stack where an operator takes its operands and where the last answer is asked for.
If it always finds something there on some operands, then whatever lies below those has no part in
it. Each word leaves the rest below to the next (`Machine.step_above`), and so a run leaves it as it
was (`Machine.run_above`). Only the depths in messages tell how much lies below, and only a run that
leaves nothing of its own answers with what does.
-/

namespace ReversePolish

/-- A message about a stack with so many more operands on it. -/
def Message.raised (k : Nat) : Message → Message
  | .pushed v depth => .pushed v (depth + k)
  | msg => msg

namespace Machine

/-- A machine with these operands below its own. -/
def above (m : Machine) (b : List Float) : Machine := ⟨m.pending ++ b.reverse⟩

/-- What a word finds where it pops the stack or looks at its top. -/
def reads (m : Machine) (w : String) : List (Option Float) :=
  match Token.classify w with
  | .ok (.operator _) => [m.top?, m.drop.top?]
  | .ok (.constant .ans _) => [m.top?]
  | _ => []

def readsEach (m : Machine) : List String → List (Option Float)
  | [] => []
  | w :: ws => m.reads w ++ (m.step w).machine.readsEach ws

end Machine

namespace Evaluation

def above (ev : Evaluation) (b : List Float) : Evaluation where
  machine := ev.machine.above b
  trace := ev.trace
  outcome :=
    match ev.outcome with
    | .terminate => .terminate
    | .proceed _ => .proceed (ev.machine.above b).answer
  journal := ev.journal.map (Message.raised b.length)

theorem above_after (ev : Evaluation) (t : List Entry) (j : List Message) (b : List Float) :
    (ev.after t j).above b = (ev.above b).after t (j.map (Message.raised b.length)) := by
  simp [after, above]

end Evaluation

namespace Machine

variable {m : Machine} {w : String} {ws us : List String} (b : List Float)

theorem operands_above (m : Machine) : (m.above b).operands = b ++ m.operands := by
  simp [above, operands]

theorem ofOperands_append (s : List Float) : ofOperands (b ++ s) = (ofOperands s).above b := by
  simp [ofOperands, above]

theorem empty_above_operands (m : Machine) : empty.above m.operands = m := by
  simp [empty, above, operands]

theorem top?_above (h : m.top? ≠ none) : (m.above b).top? = m.top? := by
  obtain ⟨pending⟩ := m
  cases pending with
  | nil => exact absurd rfl h
  | cons v pending => rfl

theorem drop_above (h : m.top? ≠ none) : (m.above b).drop = m.drop.above b := by
  obtain ⟨pending⟩ := m
  cases pending with
  | nil => exact absurd rfl h
  | cons v pending => rfl

theorem push_above (m : Machine) (v : Float) :
    (m.above b).push v =
      { machine := (m.push v).machine.above b
        entry? := some (.push v)
        message := (m.push v).message.raised b.length } := by
  simp [push, above, depth, Message.raised, Nat.add_right_comm]

theorem apply_above (op : Operator) (hrhs : m.top? ≠ none) (hlhs : m.drop.top? ≠ none) :
    (m.above b).apply op = { m.apply op with machine := (m.apply op).machine.above b } := by
  have htop : (m.above b).top = m.top := by rw [top, top?_above b hrhs, top]
  have hnext : (m.above b).drop.top = m.drop.top := by
    rw [drop_above b hrhs, top, top?_above b hlhs, top]
  have hrest : (m.above b).drop.drop = m.drop.drop.above b := by
    rw [drop_above b hrhs, drop_above b hlhs]
  simp only [apply, htop, hnext, hrest]
  rfl

theorem resolve_above (name : Constant) (h : name = .ans → m.top? ≠ none) :
    (m.above b).resolve name = m.resolve name := by
  cases name with
  | ans => rw [resolve, top, top?_above b (h rfl), resolve, top]
  | pi => rfl
  | e => rfl
  | infinity => rfl

theorem not_none_of_operator {op : Operator} (ht : Token.classify w = .ok (.operator op))
    (h : none ∉ m.reads w) : m.top? ≠ none ∧ m.drop.top? ≠ none := by
  rw [reads, ht] at h
  simpa [eq_comm] using h

theorem not_none_of_ans {negate : Bool} (ht : Token.classify w = .ok (.constant .ans negate))
    (h : none ∉ m.reads w) : m.top? ≠ none := by
  rw [reads, ht] at h
  simpa [eq_comm] using h

theorem reads_above (h : none ∉ m.reads w) : (m.above b).reads w = m.reads w := by
  cases ht : Token.classify w with
  | error defect => rw [reads, reads, ht]
  | ok t =>
    cases t with
    | terminate => rw [reads, reads, ht]
    | clear => rw [reads, reads, ht]
    | number v => rw [reads, reads, ht]
    | operator op =>
      obtain ⟨hrhs, hlhs⟩ := not_none_of_operator ht h
      simp only [reads, ht, drop_above b hrhs, top?_above b hrhs, top?_above b hlhs]
    | constant name negate =>
      cases name with
      | ans => simp only [reads, ht, top?_above b (not_none_of_ans ht h)]
      | pi => rw [reads, reads, ht]
      | e => rw [reads, reads, ht]
      | infinity => rw [reads, reads, ht]

/-- A word that clears nothing and finds what it reads leaves what is below to the rest. -/
theorem step_above (hw : w ∉ terminators) (hc : w ≠ "clear") (h : none ∉ m.reads w) :
    (m.above b).step w =
      { machine := (m.step w).machine.above b
        trace := (m.step w).trace
        journal := (m.step w).journal.map (Message.raised b.length) } := by
  cases ht : Token.classify w with
  | error defect =>
    rw [step_of_error ht, step_of_error ht]
    rfl
  | ok t =>
    cases t with
    | terminate => exact absurd (classify_eq_terminate_iff.mp ht) hw
    | clear => exact absurd (classify_eq_clear_iff.mp ht) hc
    | operator op =>
      obtain ⟨hrhs, hlhs⟩ := not_none_of_operator ht h
      rw [step_of_effect ht rfl, step_of_effect ht rfl, apply_above b op hrhs hlhs]
      rfl
    | constant name negate =>
      have hname : name = .ans → m.top? ≠ none := by
        rintro rfl
        exact not_none_of_ans ht h
      rw [step_of_effect ht rfl, step_of_effect ht rfl, resolve_above b name hname, push_above]
      rfl
    | number v =>
      rw [step_of_effect ht rfl, step_of_effect ht rfl, push_above]
      rfl

/-- The induction carries both machines: the one above the operands takes each step of the other,
and reads the same. -/
theorem run_above (hc : "clear" ∉ executed ws) (h : none ∉ m.readsEach (executed ws)) :
    (m.above b).run ws = (m.run ws).above b ∧
      (m.above b).readsEach (executed ws) = m.readsEach (executed ws) := by
  induction ws generalizing m with
  | nil => exact ⟨rfl, rfl⟩
  | cons w ws ih =>
    by_cases hw : w ∈ terminators
    · rw [run_cons_terminator hw, run_cons_terminator hw, executed_cons_of_mem hw]
      exact ⟨rfl, rfl⟩
    · rw [executed_cons_of_not_mem hw] at hc h ⊢
      rw [readsEach, List.mem_append, not_or] at h
      have hstep := step_above b hw (List.ne_of_not_mem_cons hc).symm h.1
      obtain ⟨hrun, hreads⟩ := ih (List.not_mem_of_not_mem_cons hc) h.2
      rw [run_cons hw, run_cons hw, readsEach, readsEach, hstep, hrun, hreads,
        Evaluation.above_after, reads_above b h.1]
      exact ⟨rfl, rfl⟩

theorem readsEach_append (m : Machine) (hus : ∀ u ∈ us, u ∉ terminators) (ws : List String) :
    m.readsEach (us ++ ws) = m.readsEach us ++ (m.run us).machine.readsEach ws := by
  induction us generalizing m with
  | nil => rfl
  | cons u us ih =>
    obtain ⟨hu, hus⟩ := List.forall_mem_cons.mp hus
    rw [List.cons_append, readsEach, readsEach, ih _ hus, run_cons hu, List.append_assoc]
    rfl

/-- What a run reads, one of its words read behind the words in front of it. -/
theorem exists_reads_of_mem {o : Option Float} (hws : ∀ w ∈ ws, w ∉ terminators)
    (h : o ∈ m.readsEach ws) :
    ∃ us w vs, ws = us ++ w :: vs ∧ o ∈ (m.run us).machine.reads w := by
  induction ws generalizing m with
  | nil => exact absurd h List.not_mem_nil
  | cons w ws ih =>
    obtain ⟨hw, hws⟩ := List.forall_mem_cons.mp hws
    rcases List.mem_append.mp h with h | h
    · exact ⟨[], w, ws, rfl, h⟩
    · obtain ⟨us, v, vs, rfl, hv⟩ := ih hws h
      refine ⟨w :: us, v, vs, rfl, ?_⟩
      rw [run_cons hw]
      exact hv

theorem answer_above (h : m.operands ≠ []) : (m.above b).answer = m.answer := by
  rw [answer, answer, ← getLast?_operands, ← getLast?_operands, operands_above,
    List.getLast?_append, Option.or_of_isSome (List.getLast?_isSome.mpr h)]

/-- A run that terminated, or left operands of its own, ends the same above others. -/
theorem outcome_above
    (h : (m.run ws).outcome = .terminate ∨ (m.run ws).machine.operands ≠ []) :
    ((m.run ws).above b).outcome = (m.run ws).outcome := by
  cases ho : (m.run ws).outcome with
  | terminate => simp only [Evaluation.above, ho]
  | proceed v =>
    have hne : (m.run ws).machine.operands ≠ [] := by simpa [ho] using h
    have hv := m.eq_answer_of_outcome_run ho
    simp only [Evaluation.above, ho]
    rw [answer_above b hne, hv]

/-- A phrase that clears nothing, and finds something on the operands wherever it reads the stack,
does the same whatever lies below them, and leaves that where it is. So machines that agree on the
operands that the phrase reaches cannot be told apart by it. -/
theorem eval_local {s : List Float} {p : String} (hc : "clear" ∉ executed (wordsOf p))
    (h : none ∉ (ofOperands s).readsEach (executed (wordsOf p))) :
    let bare := (ofOperands s).eval p
    (∀ b : List Float,
      let whole := (ofOperands (b ++ s)).eval p
      whole.trace = bare.trace ∧
      whole.machine.operands = b ++ bare.machine.operands ∧
      (bare.outcome = .terminate ∨ bare.machine.operands ≠ [] → whole.outcome = bare.outcome) ∧
      whole.journal = bare.journal.map (Message.raised b.length) ∧
      (ofOperands (b ++ s)).readsEach (executed (wordsOf p)) =
        (ofOperands s).readsEach (executed (wordsOf p))) ∧
    ∀ b c : List Float,
      ((ofOperands (b ++ s)).eval p).trace = ((ofOperands (c ++ s)).eval p).trace ∧
      (bare.outcome = .terminate ∨ bare.machine.operands ≠ [] →
        ((ofOperands (b ++ s)).eval p).outcome = ((ofOperands (c ++ s)).eval p).outcome) := by
  intro bare
  have hrun : ∀ b, (ofOperands (b ++ s)).eval p = bare.above b := by
    intro b
    rw [ofOperands_append, eval_eq_run, (run_above b hc h).1]
    rfl
  have hout : ∀ b, bare.outcome = .terminate ∨ bare.machine.operands ≠ [] →
      (bare.above b).outcome = bare.outcome := fun b => outcome_above b
  refine ⟨fun b => ?_, fun b c => ?_⟩
  · intro whole
    have hwhole : whole = bare.above b := hrun b
    rw [hwhole, ofOperands_append, (run_above b hc h).2]
    exact ⟨rfl, operands_above b _, hout b, rfl, rfl⟩
  · rw [hrun, hrun]
    exact ⟨rfl, fun hne => (hout b hne).trans (hout c hne).symm⟩

/-- Two operands are enough for an operator, the last answer of it, a rejected word and an end. -/
theorem eval_local_on_two :
    "clear" ∉ executed (wordsOf "- ANS x * bye /") ∧
    none ∉ (ofOperands [Binary64.e, Binary64.pi]).readsEach
      (executed (wordsOf "- ANS x * bye /")) ∧
    ∀ b : List Float,
      ((ofOperands (b ++ [Binary64.e, Binary64.pi])).eval "- ANS x * bye /").trace =
        ((ofOperands [Binary64.e, Binary64.pi]).eval "- ANS x * bye /").trace ∧
      ((ofOperands (b ++ [Binary64.e, Binary64.pi])).eval "- ANS x * bye /").machine.operands =
        b ++ ((ofOperands [Binary64.e, Binary64.pi]).eval "- ANS x * bye /").machine.operands := by
  have hc : "clear" ∉ executed (wordsOf "- ANS x * bye /") := by decide
  have h : none ∉ (ofOperands [Binary64.e, Binary64.pi]).readsEach
      (executed (wordsOf "- ANS x * bye /")) := by
    have hall : ((ofOperands [Binary64.e, Binary64.pi]).readsEach
        (executed (wordsOf "- ANS x * bye /"))).all Option.isSome = true := by decide
    exact fun hnone => absurd (List.all_eq_true.mp hall none hnone) (by decide)
  obtain ⟨hlocal, -⟩ := eval_local hc h
  exact ⟨hc, h, fun b => ⟨(hlocal b).1, (hlocal b).2.1⟩⟩

end Machine

end ReversePolish
