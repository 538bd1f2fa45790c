import ReversePolish.Proofs.Steps

/-!
# Zeros below

A missing operand reads as zero, so a machine behaves as if endless zeros lay below its operands.
Zeros that do lie there change no entry of a trace: `Machine.padded` is kept by every word, and only
an operator that finds too few operands and a clearing take zeros away.
-/

namespace ReversePolish

namespace Machine

def ofOperands (s : List Float) : Machine := ⟨s.reverse⟩

@[simp] theorem operands_ofOperands (s : List Float) : (ofOperands s).operands = s := by
  simp [ofOperands, operands]

def padded (m : Machine) (k : Nat) : Machine := ⟨m.pending ++ List.replicate k Binary64.zero⟩

variable (m : Machine) (k : Nat)

@[simp] theorem padded_zero : m.padded 0 = m := by
  simp [padded]

theorem operands_padded :
    (m.padded k).operands = List.replicate k Binary64.zero ++ m.operands := by
  simp [padded, operands]

theorem ofOperands_replicate_append (s : List Float) :
    ofOperands (List.replicate k Binary64.zero ++ s) = (ofOperands s).padded k := by
  simp [ofOperands, padded]

theorem top_padded : (m.padded k).top = m.top := by
  obtain ⟨pending⟩ := m
  cases pending with
  | cons v pending => rfl
  | nil => cases k <;> rfl

theorem drop_padded : (m.padded k).drop = m.drop.padded (k - (1 - m.depth)) := by
  obtain ⟨pending⟩ := m
  cases pending with
  | cons v pending => simp [padded, drop, depth]
  | nil => simp [padded, drop, depth]

theorem depth_drop : m.drop.depth = m.depth - 1 := by
  simp [drop, depth]

theorem drop_drop_padded :
    (m.padded k).drop.drop = m.drop.drop.padded (k - (2 - m.depth)) := by
  rw [drop_padded, drop_padded, depth_drop]
  congr 1
  omega

theorem apply_padded (op : Operator) :
    Effect.entry? ((m.padded k).apply op) = Effect.entry? (m.apply op) ∧
      ((m.padded k).apply op).machine = (m.apply op).machine.padded (k - (2 - m.depth)) := by
  have hrhs := m.top_padded k
  have hlhs : (m.padded k).drop.top = m.drop.top := by rw [drop_padded, top_padded]
  have hrest := congrArg pending (m.drop_drop_padded k)
  simp only [apply, hrhs, hlhs, hrest]
  exact ⟨trivial, rfl⟩

theorem resolve_padded (name : Constant) : (m.padded k).resolve name = m.resolve name := by
  cases name with
  | ans => exact m.top_padded k
  | pi => rfl
  | e => rfl
  | infinity => rfl

/-- How many operands a word reads as zero because there are none. -/
def lacking (m : Machine) (w : String) : Nat :=
  match Token.classify w with
  | .ok (.operator _) => 2 - m.depth
  | _ => 0

def shortfall (m : Machine) : List String → Nat
  | [] => 0
  | w :: ws => if w ∈ terminators then 0 else m.lacking w + (m.step w).machine.shortfall ws

/-- One word leaves the same entries whatever zeros lie below, and as many of them as it did not
clear or read. -/
theorem step_padded {w : String} (hw : w ∉ terminators) :
    ((m.padded k).step w).trace = (m.step w).trace ∧
      ((m.padded k).step w).machine =
        (m.step w).machine.padded (if w = "clear" then 0 else k - m.lacking w) := by
  cases ht : Token.classify w with
  | error defect =>
    have hne := ne_clear_of_classify ht nofun
    rw [step_of_error ht, step_of_error ht, if_neg hne]
    simp [lacking, ht]
  | ok t =>
    cases t with
    | terminate => exact absurd (classify_eq_terminate_iff.mp ht) hw
    | clear =>
      rw [step_of_effect ht rfl, step_of_effect ht rfl, if_pos (classify_eq_clear_iff.mp ht)]
      exact ⟨rfl, (padded_zero empty).symm⟩
    | operator op =>
      have hne := ne_clear_of_classify ht nofun
      obtain ⟨he, hm⟩ := m.apply_padded k op
      rw [step_of_effect ht rfl, step_of_effect ht rfl, if_neg hne]
      simp only [lacking, ht, he, hm, and_self]
    | constant name negate =>
      have hne := ne_clear_of_classify ht nofun
      rw [step_of_effect ht rfl, step_of_effect ht rfl, if_neg hne]
      simp only [lacking, ht, resolve_padded]
      exact ⟨rfl, rfl⟩
    | number v =>
      have hne := ne_clear_of_classify ht nofun
      rw [step_of_effect ht rfl, step_of_effect ht rfl, if_neg hne]
      simp only [lacking, ht]
      exact ⟨rfl, rfl⟩

/-- The induction carries both machines: what is left of the zeros after a word is what the rest of
the run starts with. -/
theorem run_padded (ws : List String) :
    ((m.padded k).run ws).trace = (m.run ws).trace ∧
      ((m.padded k).run ws).machine = (m.run ws).machine.padded
        (if "clear" ∈ executed ws then 0 else k - m.shortfall ws) := by
  induction ws generalizing m k with
  | nil => simp [executed, shortfall]
  | cons w ws ih =>
    by_cases hw : w ∈ terminators
    · rw [run_cons_terminator hw, run_cons_terminator hw, executed_cons_of_mem hw]
      simp [shortfall, hw]
    · obtain ⟨ht, hm⟩ := m.step_padded k hw
      rw [run_cons hw, run_cons hw, hm]
      obtain ⟨iht, ihm⟩ := ih (m.step w).machine (if w = "clear" then 0 else k - m.lacking w)
      constructor
      · simp only [Evaluation.after, ht, iht]
      · simp only [Evaluation.after, ihm, executed_cons_of_not_mem hw, List.mem_cons, shortfall,
          if_neg hw]
        congr 1
        by_cases hc : w = "clear"
        · simp [hc]
        · by_cases hcs : "clear" ∈ executed ws
          · simp [hcs]
          · rw [if_neg hc, if_neg hcs, if_neg (by simp [Ne.symm hc, hcs])]
            omega

theorem answer_of_operands_eq_nil (h : m.operands = []) : m.answer = Binary64.nan := by
  simp [answer, ← getLast?_operands, h]

theorem answer_padded_of_operands_ne_nil (h : m.operands ≠ []) :
    (m.padded k).answer = m.answer := by
  rw [answer, answer, ← getLast?_operands, ← getLast?_operands, operands_padded,
    List.getLast?_append, Option.or_of_isSome (List.getLast?_isSome.mpr h)]

theorem answer_padded_of_operands_eq_nil (h : m.operands = []) :
    (m.padded k).answer = if k = 0 then Binary64.nan else Binary64.zero := by
  rw [answer, ← getLast?_operands, operands_padded, h]
  cases k with
  | zero => rfl
  | succ k => simp [List.replicate_succ', List.getLast?_append]

/-- Zeros below the operands cannot be told from missing operands by any trace. All of them are left
that no operator read and no clearing took, and only an answer of a run that ends without operands
of its own shows whether one is. -/
theorem eval_padded (s : List Float) (k : Nat) (p : String) :
    ((ofOperands (List.replicate k Binary64.zero ++ s)).eval p).trace =
      ((ofOperands s).eval p).trace ∧
    let bare := (ofOperands s).eval p
    let above := (ofOperands (List.replicate k Binary64.zero ++ s)).eval p
    ∃ j ≤ k,
      above.machine.operands = List.replicate j Binary64.zero ++ bare.machine.operands ∧
      ("clear" ∈ executed (wordsOf p) → j = 0) ∧
      ("clear" ∉ executed (wordsOf p) → j = k - (ofOperands s).shortfall (wordsOf p)) ∧
      (bare.outcome = .terminate ∨ bare.machine.operands ≠ [] → above.outcome = bare.outcome) ∧
      (bare.outcome ≠ .terminate → bare.machine.operands = [] →
        bare.outcome = .proceed Binary64.nan ∧
        above.outcome = .proceed (if j = 0 then Binary64.nan else Binary64.zero)) := by
  obtain ⟨ht, hm⟩ := (ofOperands s).run_padded k (wordsOf p)
  rw [← ofOperands_replicate_append] at ht hm
  refine ⟨ht, ?_⟩
  intro bare above
  change above.machine = bare.machine.padded _ at hm
  have hbare : bare.outcome = _ := (ofOperands s).outcome_run (wordsOf p)
  have habove : above.outcome = _ := outcome_run _ (wordsOf p)
  refine ⟨_, ?_, by rw [hm, operands_padded], fun h => if_pos h, fun h => if_neg h, ?_, ?_⟩
  · split <;> omega
  · intro h
    by_cases hend : ∃ w ∈ wordsOf p, w ∈ terminators
    · rw [habove, hbare, if_pos hend, if_pos hend]
    · rw [if_neg hend] at hbare habove
      have hne : bare.machine.operands ≠ [] :=
        h.resolve_left fun hb => Outcome.noConfusion (hbare.symm.trans hb)
      rw [habove, hbare]
      change Outcome.proceed above.machine.answer = .proceed bare.machine.answer
      rw [hm, answer_padded_of_operands_ne_nil _ _ hne]
  · intro hgo hnil
    have hend : ¬∃ w ∈ wordsOf p, w ∈ terminators := fun hend =>
      hgo (by rw [hbare, if_pos hend])
    rw [if_neg hend] at hbare habove
    constructor
    · rw [hbare]
      exact congrArg Outcome.proceed (answer_of_operands_eq_nil _ hnil)
    · rw [habove]
      change Outcome.proceed above.machine.answer = _
      rw [hm, answer_padded_of_operands_eq_nil _ _ hnil]

end Machine

end ReversePolish
