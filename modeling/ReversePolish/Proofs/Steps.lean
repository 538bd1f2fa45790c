import ReversePolish.Machine

/-!
# One word after another

A run is a sequence of steps, one for each word up to the first that asks for the end. What a word
does that does not ask for the end is `Machine.step`. A run over two lists of words is the run over
the first and then, unless that one terminated, the run over the second (`run_append`).
-/

namespace ReversePolish

variable {m : Machine} {w : String}

/-- The words that ask for the end. -/
def terminators : List String := ["break", "exit", "quit", "bye"]

theorem wordsOf_of_word (hne : w.toList ≠ []) (h : ∀ c ∈ w.toList, Text.isBlank c = false) :
    wordsOf w = [w] := by
  rw [wordsOf, Text.words_of_word hne h]
  simp

/-- The words before the first that asks for the end. -/
def executed (ws : List String) : List String := ws.takeWhile (· ∉ terminators)

theorem executed_cons_of_mem (h : w ∈ terminators) (ws : List String) :
    executed (w :: ws) = [] := by
  simp [executed, h]

theorem executed_cons_of_not_mem (h : w ∉ terminators) (ws : List String) :
    executed (w :: ws) = w :: executed ws := by
  simp [executed, h]

theorem executed_eq_self {ws : List String} (h : ∀ w ∈ ws, w ∉ terminators) :
    executed ws = ws := by
  induction ws with
  | nil => rfl
  | cons w ws ih =>
    obtain ⟨hw, hws⟩ := List.forall_mem_cons.mp h
    rw [executed_cons_of_not_mem hw, ih hws]

theorem not_mem_terminators_of_mem_executed {ws : List String} (h : w ∈ executed ws) :
    w ∉ terminators := by
  have hall := List.all_takeWhile (p := fun v => decide (v ∉ terminators)) (l := ws)
  simpa using List.all_eq_true.mp hall w h

theorem command?_eq_terminate_iff : Token.command? w = some .terminate ↔ w ∈ terminators := by
  constructor
  · intro h
    unfold Token.command? at h
    split at h
    · simp [terminators]
    · simp [terminators]
    · simp [terminators]
    · simp [terminators]
    · cases h
    · obtain ⟨op, _, hop⟩ := Option.map_eq_some_iff.mp h
      cases hop
  · intro h
    simp only [terminators, List.mem_cons, List.not_mem_nil, or_false] at h
    rcases h with rfl | rfl | rfl | rfl <;> rfl

theorem command?_eq_clear_iff : Token.command? w = some .clear ↔ w = "clear" := by
  constructor
  · intro h
    unfold Token.command? at h
    split at h
    · cases h
    · cases h
    · cases h
    · cases h
    · rfl
    · obtain ⟨op, _, hop⟩ := Option.map_eq_some_iff.mp h
      cases hop
  · rintro rfl
    rfl

theorem classify_of_command? {t : Token} (h : Token.command? w = some t) :
    Token.classify w = .ok t := by
  simp [Token.classify, h]

/-- Whatever its sign and case, no constant is a command, and no numeral is. -/
theorem command?_of_classify {t : Token} (h : Token.classify w = .ok t)
    (hc : ∀ name negate, t ≠ .constant name negate) (hn : ∀ v, t ≠ .number v) :
    Token.command? w = some t := by
  unfold Token.classify at h
  split at h
  · rename_i t' ht
    cases h
    rcases Option.or_eq_some_iff.mp ht with hcmd | ⟨_, hconst⟩
    · exact hcmd
    · obtain ⟨name, _, rfl⟩ := Option.map_eq_some_iff.mp hconst
      exact absurd rfl (hc name _)
  · split at h
    · rename_i n _
      cases h
      exact absurd rfl (hn n.value)
    · cases h

theorem classify_eq_terminate_iff : Token.classify w = .ok .terminate ↔ w ∈ terminators := by
  rw [← command?_eq_terminate_iff]
  exact ⟨fun h => command?_of_classify h nofun nofun, classify_of_command?⟩

theorem classify_eq_clear_iff : Token.classify w = .ok .clear ↔ w = "clear" := by
  rw [← command?_eq_clear_iff]
  exact ⟨fun h => command?_of_classify h nofun nofun, classify_of_command?⟩

theorem ne_clear_of_classify {r : Except Numeral.Defect Token} (h : Token.classify w = r)
    (hr : r ≠ .ok .clear) : w ≠ "clear" := by
  intro hw
  exact hr (h.symm.trans (classify_eq_clear_iff.mpr hw))

theorem effect?_eq_none_iff {t : Token} : m.effect? t = none ↔ t = .terminate := by
  cases t <;> simp [Machine.effect?]

structure Step where
  machine : Machine
  trace : List Entry
  journal : List Message

def Machine.step (m : Machine) (w : String) : Step :=
  match Token.classify w with
  | .error defect => ⟨m, [.error ⟨w, defect⟩], [.rejected ⟨w, defect⟩]⟩
  | .ok token =>
    match m.effect? token with
    | none => ⟨m, [], []⟩
    | some eff => ⟨eff.machine, eff.entry?.toList, [.token w token, eff.message]⟩

theorem step_of_error {defect : Numeral.Defect} (h : Token.classify w = .error defect) :
    m.step w = ⟨m, [.error ⟨w, defect⟩], [.rejected ⟨w, defect⟩]⟩ := by
  simp [Machine.step, h]

theorem step_of_effect {t : Token} {eff : Effect} (h : Token.classify w = .ok t)
    (he : m.effect? t = some eff) :
    m.step w = ⟨eff.machine, eff.entry?.toList, [.token w t, eff.message]⟩ := by
  simp [Machine.step, h, he]

/-- The steps that a word can take, each with all of its records. -/
inductive Machine.Does (m : Machine) (w : String) : Step → Prop
  | reject {defect : Numeral.Defect} (h : Token.classify w = .error defect) :
      m.Does w ⟨m, [.error ⟨w, defect⟩], [.rejected ⟨w, defect⟩]⟩
  | clear (h : Token.classify w = .ok .clear) :
      m.Does w ⟨empty, [], [.token w .clear, .clearing m.depth]⟩
  | apply {op : Operator} (h : Token.classify w = .ok (.operator op)) :
      m.Does w ⟨(m.apply op).machine,
        [.apply m.drop.top op m.top (op.apply m.drop.top m.top)],
        [.token w (.operator op), .applied m.drop.top op m.top (op.apply m.drop.top m.top)]⟩
  | push {t : Token} {v : Float} (h : Token.classify w = .ok t)
      (ht : m.effect? t = some (m.push v)) :
      m.Does w ⟨(m.push v).machine, [.push v], [.token w t, .pushed v (m.depth + 1)]⟩

theorem does_step (h : w ∉ terminators) : m.Does w (m.step w) := by
  cases ht : Token.classify w with
  | error defect =>
    rw [step_of_error ht]
    exact .reject ht
  | ok t =>
    cases t with
    | terminate => exact absurd (classify_eq_terminate_iff.mp ht) h
    | clear =>
      rw [step_of_effect ht rfl]
      exact .clear ht
    | operator op =>
      rw [step_of_effect ht rfl]
      exact .apply ht
    | constant name negate =>
      rw [step_of_effect ht rfl]
      exact .push ht rfl
    | number v =>
      rw [step_of_effect ht rfl]
      exact .push ht rfl

theorem run_cons_terminator (h : w ∈ terminators) (ws : List String) :
    m.run (w :: ws) = ⟨m, [], .terminate, [.token w .terminate, .terminating w]⟩ := by
  rw [Machine.run, classify_eq_terminate_iff.mpr h]
  rfl

theorem run_cons (h : w ∉ terminators) (ws : List String) :
    m.run (w :: ws) = ((m.step w).machine.run ws).after (m.step w).trace (m.step w).journal := by
  rw [Machine.run]
  cases ht : Token.classify w with
  | error defect => rw [step_of_error ht]
  | ok t =>
    have hne : m.effect? t ≠ none := fun he =>
      h (classify_eq_terminate_iff.mp (effect?_eq_none_iff.mp he ▸ ht))
    obtain ⟨eff, he⟩ := Option.ne_none_iff_exists'.mp hne
    simp only [he]
    rw [step_of_effect ht he]

theorem run_singleton (h : w ∉ terminators) :
    m.run [w] = ⟨(m.step w).machine, (m.step w).trace, .proceed (m.step w).machine.answer,
      (m.step w).journal⟩ := by
  rw [run_cons h]
  simp [Evaluation.after]

namespace Evaluation

variable (ev : Evaluation)

@[simp] theorem after_nil : ev.after [] [] = ev := rfl

theorem after_after (t t' : List Entry) (j j' : List Message) :
    (ev.after t j).after t' j' = ev.after (t' ++ t) (j' ++ j) := by
  simp [after]

/-- An evaluation and, unless it terminated, another one on the machine it left. -/
def andThen (next : Machine → Evaluation) : Evaluation :=
  match ev.outcome with
  | .terminate => ev
  | .proceed _ => (next ev.machine).after ev.trace ev.journal

theorem andThen_of_terminate {ev : Evaluation} (h : ev.outcome = .terminate)
    (next : Machine → Evaluation) : ev.andThen next = ev := by
  simp [andThen, h]

theorem andThen_of_proceed {ev : Evaluation} {v : Float} (h : ev.outcome = .proceed v)
    (next : Machine → Evaluation) :
    ev.andThen next = (next ev.machine).after ev.trace ev.journal := by
  simp [andThen, h]

theorem after_andThen (t : List Entry) (j : List Message) (next : Machine → Evaluation) :
    (ev.after t j).andThen next = (ev.andThen next).after t j := by
  cases h : ev.outcome with
  | terminate => rw [andThen_of_terminate h, andThen_of_terminate (by exact h)]
  | proceed v =>
    rw [andThen_of_proceed h, andThen_of_proceed (by exact h), after_after]
    rfl

end Evaluation

namespace Machine

variable (m : Machine)

theorem run_append (us ws : List String) :
    m.run (us ++ ws) = (m.run us).andThen fun n => n.run ws := by
  induction us generalizing m with
  | nil => rfl
  | cons u us ih =>
    by_cases hu : u ∈ terminators
    · rw [List.cons_append, run_cons_terminator hu, run_cons_terminator hu]
      rfl
    · rw [List.cons_append, run_cons hu, run_cons hu, ih, Evaluation.after_andThen]

/-- Whether a run terminates does not depend on the operands. A run to the end answers with the top
of the machine it leaves. -/
theorem outcome_run (ws : List String) :
    (m.run ws).outcome =
      if ∃ w ∈ ws, w ∈ terminators then .terminate else .proceed (m.run ws).machine.answer := by
  induction ws generalizing m with
  | nil => simp
  | cons w ws ih =>
    by_cases hw : w ∈ terminators
    · rw [run_cons_terminator hw, if_pos ⟨w, List.mem_cons_self, hw⟩]
    · rw [run_cons hw]
      simpa [Evaluation.after, hw] using ih (m.step w).machine

theorem outcome_run_eq_terminate_iff {ws : List String} :
    (m.run ws).outcome = .terminate ↔ ∃ w ∈ ws, w ∈ terminators := by
  rw [outcome_run]
  split <;> simp_all

theorem outcome_run_of_forall {ws : List String} (h : ∀ w ∈ ws, w ∉ terminators) :
    (m.run ws).outcome = .proceed (m.run ws).machine.answer := by
  rw [outcome_run, if_neg]
  rintro ⟨w, hw, ht⟩
  exact h w hw ht

theorem eq_answer_of_outcome_run {ws : List String} {v : Float}
    (h : (m.run ws).outcome = .proceed v) : v = (m.run ws).machine.answer := by
  rw [outcome_run] at h
  split at h
  · cases h
  · cases h
    rfl

theorem run_append_of_exists {us : List String} (h : ∃ w ∈ us, w ∈ terminators)
    (ws : List String) : m.run (us ++ ws) = m.run us := by
  rw [run_append, Evaluation.andThen_of_terminate (m.outcome_run_eq_terminate_iff.mpr h)]

theorem run_append_of_forall {us : List String} (h : ∀ w ∈ us, w ∉ terminators)
    (ws : List String) :
    m.run (us ++ ws) = ((m.run us).machine.run ws).after (m.run us).trace (m.run us).journal := by
  rw [run_append, Evaluation.andThen_of_proceed (m.outcome_run_of_forall h)]

theorem machine_run_append {us : List String} (h : ∀ w ∈ us, w ∉ terminators)
    (ws : List String) : (m.run (us ++ ws)).machine = ((m.run us).machine.run ws).machine := by
  rw [run_append_of_forall m h]
  rfl

/-- What a run records, the step of one of its words recorded. -/
theorem exists_step_of_mem_trace {ws : List String} {e : Entry} (h : e ∈ (m.run ws).trace) :
    ∃ n : Machine, ∃ w ∈ ws, w ∉ terminators ∧ e ∈ (n.step w).trace := by
  induction ws generalizing m with
  | nil => exact absurd h List.not_mem_nil
  | cons w ws ih =>
    by_cases hw : w ∈ terminators
    · rw [run_cons_terminator hw] at h
      exact absurd h List.not_mem_nil
    · rw [run_cons hw] at h
      rcases List.mem_append.mp h with h | h
      · exact ⟨m, w, List.mem_cons_self, hw, h⟩
      · obtain ⟨n, v, hv, hstep⟩ := ih (m.step w).machine h
        exact ⟨n, v, List.mem_cons_of_mem w hv, hstep⟩

theorem mem_trace_run_of_mem_step {us : List String} {e : Entry} (hus : ∀ u ∈ us, u ∉ terminators)
    (hw : w ∉ terminators) (he : e ∈ ((m.run us).machine.step w).trace) (vs : List String) :
    e ∈ (m.run (us ++ w :: vs)).trace := by
  rw [run_append_of_forall m hus, run_cons hw]
  exact List.mem_append_right _ (List.mem_append_left _ he)

/-- What a run tells, the step of one of its words told, or it tells of the end. -/
theorem exists_step_of_mem_journal {ws : List String} {msg : Message}
    (h : msg ∈ (m.run ws).journal) :
    (∃ n : Machine, ∃ w ∈ ws, w ∉ terminators ∧ msg ∈ (n.step w).journal) ∨
      ∃ w ∈ ws, w ∈ terminators ∧ (msg = .token w .terminate ∨ msg = .terminating w) := by
  induction ws generalizing m with
  | nil => exact absurd h List.not_mem_nil
  | cons w ws ih =>
    by_cases hw : w ∈ terminators
    · rw [run_cons_terminator hw] at h
      exact Or.inr ⟨w, List.mem_cons_self, hw, by simpa using h⟩
    · rw [run_cons hw] at h
      rcases List.mem_append.mp h with h | h
      · exact Or.inl ⟨m, w, List.mem_cons_self, hw, h⟩
      · rcases ih (m.step w).machine h with ⟨n, v, hv, hstep⟩ | ⟨v, hv, hend⟩
        · exact Or.inl ⟨n, v, List.mem_cons_of_mem w hv, hstep⟩
        · exact Or.inr ⟨v, List.mem_cons_of_mem w hv, hend⟩

theorem machine_run_executed (ws : List String) :
    (m.run (executed ws)).machine = (m.run ws).machine := by
  induction ws generalizing m with
  | nil => rfl
  | cons w ws ih =>
    by_cases hw : w ∈ terminators
    · rw [run_cons_terminator hw, executed_cons_of_mem hw]
      rfl
    · rw [run_cons hw, executed_cons_of_not_mem hw, run_cons hw]
      exact ih (m.step w).machine

/-- What each word leaves in the trace, or of it, a run leaves in the order of its words. -/
theorem filterMap_trace_run {α : Type} {f : Entry → Option α} {g : String → Option α}
    (h : ∀ (m : Machine) (w : String) (st : Step), m.Does w st →
      st.trace.filterMap f = (g w).toList) (ws : List String) :
    (m.run ws).trace.filterMap f = (executed ws).filterMap g := by
  induction ws generalizing m with
  | nil => rfl
  | cons w ws ih =>
    by_cases hw : w ∈ terminators
    · rw [run_cons_terminator hw, executed_cons_of_mem hw]
      rfl
    · rw [run_cons hw, executed_cons_of_not_mem hw, List.filterMap_cons,
        ← ih (m.step w).machine]
      simp only [Evaluation.after, List.filterMap_append, h m w _ (does_step hw)]
      cases g w <;> rfl

end Machine

end ReversePolish
