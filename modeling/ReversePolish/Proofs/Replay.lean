import ReversePolish.Proofs.Isolation
import ReversePolish.Proofs.Renderings

/-!
# Replaying a trace

The texts of a trace spell a phrase: a number for each operand pushed and a symbol for each operator
applied. Numbers are written so that they are read back, and an operator takes its operands as it
did before, so each of these words does again what the word behind its entry did
(`Machine.Does.run_words`). What that word was, the value of a constant at the time, its sign and
its letters are nowhere needed. Only a clearing leaves no entry.
-/

namespace ReversePolish

/-- The word that an entry of this text spells, unless the text is of an error. -/
def retold? (line : String) : Option String :=
  match wordsOf line with
  | ["Pushing", v] => some v
  | ["Pushing", _, symbol, _, "=", _] => some symbol
  | _ => none

def replay (lines : List String) : String :=
  (String.singleton ' ').intercalate (lines.filterMap retold?)

namespace Entry

/-- The word that does again what an entry is of. -/
def word? : Entry → Option String
  | push v => some (showFloat v)
  | apply _ op _ _ => some op.symbol
  | error _ => none

theorem wordsOf_text_error (r : Rejection) :
    wordsOf (error r).text = "Error:" :: wordsOf r.text := by
  have htext : (error r).text = "Error:" ++ " " ++ r.text := by
    simp [text_error]
  rw [htext, wordsOf_cons (by decide)]

theorem retold?_text (e : Entry) : retold? e.text = e.word? := by
  cases e with
  | push v =>
    rw [retold?, wordsOf_text_push]
    rfl
  | apply l op r x =>
    rw [retold?, wordsOf_text_apply]
    rfl
  | error r =>
    rw [retold?, wordsOf_text_error]
    rfl

theorem classify_of_word? {e : Entry} {w : String} (h : e.word? = some w) :
    (∃ v, Token.classify w = .ok (.number v)) ∨ ∃ op, Token.classify w = .ok (.operator op) := by
  cases e with
  | push v =>
    cases h
    exact Or.inl ⟨v, Layout.plain.classify_text v⟩
  | apply l op r x =>
    cases h
    exact Or.inr ⟨op, classify_symbol op⟩
  | error r => cases h

def words (t : List Entry) : List String := t.filterMap word?

theorem words_append (t t' : List Entry) : words (t ++ t') = words t ++ words t' :=
  List.filterMap_append

theorem classify_of_mem_words {t : List Entry} {w : String} (h : w ∈ words t) :
    (∃ v, Token.classify w = .ok (.number v)) ∨ ∃ op, Token.classify w = .ok (.operator op) := by
  obtain ⟨e, -, he⟩ := List.mem_filterMap.mp h
  exact classify_of_word? he

theorem not_terminator_of_mem_words {t : List Entry} : ∀ w ∈ words t, w ∉ terminators := by
  intro w hw
  rcases classify_of_mem_words hw with ⟨v, h⟩ | ⟨op, h⟩
  · exact not_terminator_of_classify h Token.noConfusion
  · exact not_terminator_of_classify h Token.noConfusion

theorem filterMap_retold?_texts (t : List Entry) : (t.map text).filterMap retold? = words t := by
  rw [List.filterMap_map, words]
  exact List.filterMap_congr fun e _ => retold?_text e

theorem wordsOf_replay (t : List Entry) : wordsOf (replay (t.map text)) = words t := by
  rw [replay, filterMap_retold?_texts, wordsOf_intercalate_blank (by decide), flatMap_wordsOf]
  intro w hw
  rcases classify_of_mem_words hw with ⟨v, h⟩ | ⟨op, h⟩
  · exact wordsOf_of_word (Token.isWord_of_classify h).1 (Token.isWord_of_classify h).2
  · exact wordsOf_of_word (Token.isWord_of_classify h).1 (Token.isWord_of_classify h).2

end Entry

namespace Machine

open Entry

variable {m : Machine} {w : String} {ws : List String}

/-- On the machine on which a word took a step, the words of its entries take the same one. -/
theorem Does.run_words {st : Step} (h : m.Does w st) (hc : w ≠ "clear") :
    (m.run (words st.trace)).machine = st.machine ∧
      (m.run (words st.trace)).trace = st.trace.filter (!isError ·) := by
  cases h with
  | reject => exact ⟨rfl, rfl⟩
  | clear h => exact absurd (classify_eq_clear_iff.mp h) hc
  | @apply op =>
    have hrun := m.run_symbol op
    exact ⟨congrArg Evaluation.machine hrun, congrArg Evaluation.trace hrun⟩
  | @push t v => exact m.run_postorder (Expression.ofFloat v)

/-- The words of the entries of a run take each of its steps again, on the same machines. -/
theorem run_words (hc : "clear" ∉ executed ws) :
    (m.run (words (m.run ws).trace)).machine = (m.run ws).machine ∧
      (m.run (words (m.run ws).trace)).trace = (m.run ws).trace.filter (!isError ·) := by
  induction ws generalizing m with
  | nil => exact ⟨rfl, rfl⟩
  | cons w ws ih =>
    by_cases hw : w ∈ terminators
    · rw [run_cons_terminator hw]
      exact ⟨rfl, rfl⟩
    · rw [executed_cons_of_not_mem hw] at hc
      -- the words of the first entries leave the machine on which the other words went on
      have hstep := (does_step (m := m) hw).run_words (List.ne_of_not_mem_cons hc).symm
      have hrest := ih (m := (m.step w).machine) (List.not_mem_of_not_mem_cons hc)
      have htrace : (m.run (w :: ws)).trace =
          (m.step w).trace ++ ((m.step w).machine.run ws).trace := by
        rw [run_cons hw]
        rfl
      rw [htrace, words_append, run_append_of_forall m not_terminator_of_mem_words, hstep.1,
        run_cons hw, List.filter_append, ← hstep.2, ← hrest.2]
      exact ⟨hrest.1, rfl⟩

/-- The words spelled by the texts of a trace evaluate to the same operands, and leave the same
trace but for its errors, if nothing was cleared. They are numbers and operators only, and reach
their end even if the phrase asked for one. -/
theorem eval_replay (m : Machine) {p : String} (hc : "clear" ∉ executed (wordsOf p)) :
    let first := m.eval p
    let again := m.eval (replay (first.trace.map text))
    again.trace = first.trace.filter (!isError ·) ∧
      again.machine.operands = first.machine.operands ∧
      again.outcome = .proceed first.machine.answer ∧
      ∀ w ∈ wordsOf (replay (first.trace.map text)),
        (∃ v, Token.classify w = .ok (.number v)) ∨
          ∃ op, Token.classify w = .ok (.operator op) := by
  intro first again
  have hwords := wordsOf_replay first.trace
  have hagain : again = m.run (words first.trace) := by
    rw [← hwords]
    rfl
  obtain ⟨hmachine, htrace⟩ := run_words (m := m) hc
  rw [hagain, hwords, m.outcome_run_of_forall not_terminator_of_mem_words]
  exact ⟨htrace, congrArg operands hmachine, congrArg (Outcome.proceed ·.answer) hmachine,
    fun w hw => classify_of_mem_words hw⟩

/-- The last answer and a constant replayed as numbers, without the end behind them. -/
theorem eval_replay_of_numbers :
    let first := eval ⟨[Binary64.e]⟩ "ANS x -pi ^ * bye 7"
    let again := eval ⟨[Binary64.e]⟩ "2.718281828459045 -3.141592653589793 ^ *"
    "clear" ∉ executed (wordsOf "ANS x -pi ^ * bye 7") ∧
    replay (first.trace.map text) = "2.718281828459045 -3.141592653589793 ^ *" ∧
    again.trace = first.trace.filter (!isError ·) ∧
    again.machine.operands = first.machine.operands := by
  intro first again
  have hc : "clear" ∉ executed (wordsOf "ANS x -pi ^ * bye 7") := by decide
  have hwords : words first.trace =
      [showFloat Binary64.e, showFloat (-Binary64.pi), "^", "*"] := rfl
  have hreplay : replay (first.trace.map text) = "2.718281828459045 -3.141592653589793 ^ *" := by
    rw [replay, filterMap_retold?_texts, hwords]
    decide +kernel
  obtain ⟨htrace, hoperands, -, -⟩ := eval_replay ⟨[Binary64.e]⟩ hc
  rw [hreplay] at htrace hoperands
  exact ⟨hc, hreplay, htrace, hoperands⟩

end Machine

end ReversePolish
