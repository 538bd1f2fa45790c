import ReversePolish.Proofs.Spacing
import ReversePolish.Proofs.Steps

/-!
# Expressions in postfix

An expression is written operands first, the left one before the right one, and its operator behind
them. Evaluating the words of some expressions pushes their values, in order, on whatever operands
there are, and neither reads nor changes those.
-/

namespace ReversePolish

/-- The value of a constant that is the same on every machine. -/
def Constant.value? : Constant → Option Float
  | pi => some Binary64.pi
  | e => some Binary64.e
  | ans => none
  | infinity => some Binary64.infinity

def Token.value? : Token → Option Float
  | constant name negate => name.value?.map fun v => if negate then -v else v
  | number v => some v
  | terminate | clear | operator _ => none

/-- A word for a number or for a constant other than the last answer. -/
structure Literal where
  word : String
  token : Token
  value : Float
  classify_word : Token.classify word = .ok token
  value_token : token.value? = some value

inductive Expression
  | literal (l : Literal)
  | operation (op : Operator) (lhs rhs : Expression)

namespace Expression

def value : Expression → Float
  | literal l => l.value
  | operation op lhs rhs => op.apply lhs.value rhs.value

/-- The words of an expression, each operator behind both its operands. -/
def postorder : Expression → List String
  | literal l => [l.word]
  | operation op lhs rhs => lhs.postorder ++ rhs.postorder ++ [op.symbol]

/-- One entry for each node, in the order of its word. -/
def entries : Expression → List Entry
  | literal l => [.push l.value]
  | operation op lhs rhs =>
    lhs.entries ++ rhs.entries ++
      [.apply lhs.value op rhs.value (op.apply lhs.value rhs.value)]

end Expression

theorem classify_symbol (op : Operator) : Token.classify op.symbol = .ok (.operator op) := by
  cases op <;> rfl

theorem effect?_of_value? (m : Machine) {t : Token} {v : Float} (h : t.value? = some v) :
    m.effect? t = some (m.push v) := by
  cases t with
  | terminate => cases h
  | clear => cases h
  | operator op => cases h
  | number x =>
    cases h
    rfl
  | constant name negate =>
    obtain ⟨x, hx, rfl⟩ := Option.map_eq_some_iff.mp h
    cases name with
    | ans => cases hx
    | pi => cases hx; rfl
    | e => cases hx; rfl
    | infinity => cases hx; rfl

theorem not_terminator_of_classify {w : String} {t : Token} (h : Token.classify w = .ok t)
    (ht : t ≠ .terminate) : w ∉ terminators := by
  intro hw
  rw [classify_eq_terminate_iff.mpr hw] at h
  cases h
  exact ht rfl

namespace Literal

theorem token_ne_terminate (l : Literal) : l.token ≠ .terminate := by
  intro h
  have hv := l.value_token
  rw [h] at hv
  cases hv

theorem step_word (l : Literal) (m : Machine) :
    m.step l.word = ⟨(m.push l.value).machine, [.push l.value],
      [.token l.word l.token, (m.push l.value).message]⟩ :=
  step_of_effect l.classify_word (effect?_of_value? m l.value_token)

end Literal

namespace Expression

theorem classify_of_mem_postorder {e : Expression} {w : String} (h : w ∈ e.postorder) :
    ∃ t, Token.classify w = .ok t ∧ t ≠ .terminate := by
  induction e with
  | literal l =>
    rw [List.mem_singleton.mp h]
    exact ⟨l.token, l.classify_word, l.token_ne_terminate⟩
  | operation op lhs rhs ihl ihr =>
    rcases List.mem_append.mp h with h | h
    · exact (List.mem_append.mp h).elim ihl ihr
    · rw [List.mem_singleton.mp h]
      exact ⟨.operator op, classify_symbol op, Token.noConfusion⟩

theorem not_terminator_of_mem_postorder {e : Expression} :
    ∀ w ∈ e.postorder, w ∉ terminators := by
  intro w hw
  obtain ⟨t, ht, hne⟩ := classify_of_mem_postorder hw
  exact not_terminator_of_classify ht hne

end Expression

namespace Machine

open Expression

variable (m : Machine)

theorem apply_push_push (op : Operator) (lhs rhs : Float) :
    ((m.push lhs).machine.push rhs).machine.apply op =
      { machine := (m.push (op.apply lhs rhs)).machine
        entry? := some (.apply lhs op rhs (op.apply lhs rhs))
        message := .applied lhs op rhs (op.apply lhs rhs) } := rfl

theorem run_literal (l : Literal) :
    m.run [l.word] = (run (m.push l.value).machine []).after [.push l.value]
      [.token l.word l.token, (m.push l.value).message] := by
  have hne := not_terminator_of_classify l.classify_word l.token_ne_terminate
  rw [run_cons hne, l.step_word]

theorem run_symbol (op : Operator) :
    m.run [op.symbol] =
      (run (m.apply op).machine []).after
        [.apply m.drop.top op m.top (op.apply m.drop.top m.top)]
        [.token op.symbol (.operator op), (m.apply op).message] := by
  have hne := not_terminator_of_classify (classify_symbol op) Token.noConfusion
  rw [run_cons hne, step_of_effect (classify_symbol op) rfl]
  rfl

/-- The induction carries the machine: each operand is evaluated above what is already there. -/
theorem run_postorder (e : Expression) :
    (m.run e.postorder).machine = (m.push e.value).machine ∧
      (m.run e.postorder).trace = e.entries := by
  induction e generalizing m with
  | literal l =>
    rw [postorder, run_literal]
    exact ⟨rfl, rfl⟩
  | operation op lhs rhs ihl ihr =>
    obtain ⟨hml, htl⟩ := ihl m
    obtain ⟨hmr, htr⟩ := ihr (m.push lhs.value).machine
    rw [postorder, List.append_assoc, run_append_of_forall m not_terminator_of_mem_postorder, hml]
    rw [run_append_of_forall _ not_terminator_of_mem_postorder, hmr, run_symbol, apply_push_push]
    refine ⟨rfl, ?_⟩
    simp only [Evaluation.after, htl, htr, run_nil, List.append_nil, entries, List.append_assoc]
    rfl

theorem run_flatMap_postorder (es : List Expression) :
    (m.run (es.flatMap postorder)).machine.operands = m.operands ++ es.map value ∧
      (m.run (es.flatMap postorder)).trace = es.flatMap entries := by
  induction es generalizing m with
  | nil => simp
  | cons e es ih =>
    obtain ⟨hm, ht⟩ := m.run_postorder e
    obtain ⟨hms, hts⟩ := ih (m.push e.value).machine
    rw [List.flatMap_cons, run_append_of_forall m not_terminator_of_mem_postorder, hm]
    constructor
    · simpa [Evaluation.after] using hms
    · simp [Evaluation.after, ht, hts]

end Machine

theorem wordsOf_of_spaced {es : List Expression} {p : String}
    (h : Text.Spaced ((es.flatMap Expression.postorder).map String.toList) p.toList) :
    wordsOf p = es.flatMap Expression.postorder := by
  rw [wordsOf, Text.words_of_spaced h]
  · simp
  · intro w hw
    obtain ⟨v, hv, rfl⟩ := List.mem_map.mp hw
    obtain ⟨e, _, hv⟩ := List.mem_flatMap.mp hv
    obtain ⟨t, ht, _⟩ := Expression.classify_of_mem_postorder hv
    exact Token.isWord_of_classify ht

theorem error_not_mem_entries (e : Expression) (r : Rejection) : Entry.error r ∉ e.entries := by
  induction e with
  | literal l => simp [Expression.entries]
  | operation op lhs rhs ihl ihr => simp [Expression.entries, ihl, ihr]

namespace Machine

/-- Evaluating expressions in postfix, however spaced, pushes their values above the operands there
are, and records each value and each operation between values. -/
theorem eval_postorder (m : Machine) (es : List Expression) {p : String}
    (h : Text.Spaced ((es.flatMap Expression.postorder).map String.toList) p.toList) :
    (m.eval p).machine.operands = m.operands ++ es.map Expression.value ∧
    (m.eval p).trace = es.flatMap Expression.entries ∧
    (∀ r, Entry.error r ∉ (m.eval p).trace) ∧
    ∀ e ∈ es.getLast?, (m.eval p).outcome = .proceed e.value := by
  have hp : m.eval p = m.run (es.flatMap Expression.postorder) := by
    rw [← wordsOf_of_spaced h]
    rfl
  obtain ⟨hm, ht⟩ := m.run_flatMap_postorder es
  rw [hp]
  refine ⟨hm, ht, ?_, ?_⟩
  · intro r hr
    rw [ht] at hr
    obtain ⟨e, _, he⟩ := List.mem_flatMap.mp hr
    exact error_not_mem_entries e r he
  · intro e he
    have hnone : ∀ w ∈ es.flatMap Expression.postorder, w ∉ terminators := by
      intro w hw
      obtain ⟨e, _, hw⟩ := List.mem_flatMap.mp hw
      exact Expression.not_terminator_of_mem_postorder w hw
    have htop : (m.run (es.flatMap Expression.postorder)).machine.top? = some e.value := by
      rw [← getLast?_operands, hm, List.getLast?_append, List.getLast?_map, he]
      rfl
    rw [outcome_run_of_forall m hnone, answer, htop]
    rfl

/-- Eight less the negated constant, above an operand that stays as it is. -/
theorem eval_postorder_subtract :
    Text.Spaced (["8", "-PI", "-"].map String.toList) " 8\t-PI -\n".toList ∧
    (eval ⟨[Binary64.e]⟩ " 8\t-PI -\n").machine.operands =
      [Binary64.e, Numeral.value ⟨false, .decimal ⟨8, 0⟩⟩ - -Binary64.pi] := by
  have h : Text.Spaced (["8", "-PI", "-"].map String.toList) " 8\t-PI -\n".toList :=
    .blank rfl (.word ['8'] rfl (.word ['-', 'P', 'I'] rfl (.word ['-'] rfl .empty)))
  have h8 : Token.classify "8" = .ok (.number (Numeral.value ⟨false, .decimal ⟨8, 0⟩⟩)) := rfl
  have hpi : Token.classify "-PI" = .ok (.constant .pi true) := rfl
  have hrun := eval_postorder ⟨[Binary64.e]⟩ [.operation .subtract
    (.literal ⟨"8", _, _, h8, rfl⟩) (.literal ⟨"-PI", _, -Binary64.pi, hpi, rfl⟩)]
    (p := " 8\t-PI -\n") h
  exact ⟨h, hrun.1⟩

end Machine

end ReversePolish
