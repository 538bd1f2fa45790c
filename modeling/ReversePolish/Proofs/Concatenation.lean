import ReversePolish.Proofs.Steps

/-!
# Cutting a phrase

White space between two phrases cuts their words apart, so a phrase may be evaluated in pieces, one
call after another on the same machine. Nothing is lost but the answers in between. A termination
word ends the phrase and all that was to come behind it.
-/

namespace ReversePolish

theorem wordsOf_append_blank (a b : String) {c : Char} (hc : Text.isBlank c = true) :
    wordsOf (a ++ String.singleton c ++ b) = wordsOf a ++ wordsOf b := by
  have hl : (a ++ String.singleton c ++ b).toList = a.toList ++ c :: b.toList := by simp
  rw [wordsOf, hl, Text.words_append_blank _ hc, List.map_append]
  rfl

theorem wordsOf_intercalate_blank {c : Char} (hc : Text.isBlank c = true) (ps : List String) :
    wordsOf ((String.singleton c).intercalate ps) = ps.flatMap wordsOf := by
  induction ps with
  | nil => rfl
  | cons p ps ih =>
    cases ps with
    | nil => simp
    | cons q ps =>
      rw [String.intercalate_cons_cons, wordsOf_append_blank p _ hc, ih]
      rfl

/-- A phrase with others behind it, each behind a character of its own. -/
def spliced (a : String) (rest : List (Char × String)) : String :=
  a ++ String.join (rest.map fun r => String.singleton r.1 ++ r.2)

theorem spliced_cons (a : String) (r : Char × String) (rest : List (Char × String)) :
    spliced a (r :: rest) = a ++ String.singleton r.1 ++ spliced r.2 rest := by
  simp only [spliced, List.map_cons, String.join_cons, String.append_assoc]

theorem wordsOf_spliced (a : String) {rest : List (Char × String)}
    (h : ∀ r ∈ rest, Text.isBlank r.1 = true) :
    wordsOf (spliced a rest) = (a :: rest.map Prod.snd).flatMap wordsOf := by
  induction rest generalizing a with
  | nil => simp [spliced]
  | cons r rest ih =>
    rw [spliced_cons, wordsOf_append_blank _ _ (h r List.mem_cons_self)]
    rw [ih r.2 fun s hs => h s (List.mem_cons_of_mem r hs)]
    simp

namespace Machine

variable (m : Machine)

theorem eval_eq_run (p : String) : m.eval p = m.run (wordsOf p) := rfl

/-- Phrases evaluated one after another, up to the first that terminates. -/
def evalEach (m : Machine) : List String → Evaluation
  | [] => ⟨m, [], .proceed m.answer, []⟩
  | p :: ps => (m.eval p).andThen fun n => n.evalEach ps

theorem evalEach_eq_run (ps : List String) : m.evalEach ps = m.run (ps.flatMap wordsOf) := by
  induction ps generalizing m with
  | nil => rfl
  | cons p ps ih =>
    rw [evalEach, List.flatMap_cons, run_append, eval_eq_run]
    congr 1
    funext n
    exact ih n

/-- Evaluation takes concatenation at white space to one evaluation after the other. A termination
word in the first phrase hides the second, and its words alone decide whether it terminates. -/
theorem eval_append_blank (a b : String) {c : Char} (hc : Text.isBlank c = true) :
    ((m.eval a).outcome = .terminate ↔ ∃ w ∈ wordsOf a, w ∈ terminators) ∧
    ((m.eval a).outcome = .terminate →
      m.eval (a ++ String.singleton c ++ b) = m.eval a ∧
      (m.eval a).machine = (m.run (executed (wordsOf a))).machine) ∧
    ((m.eval a).outcome ≠ .terminate →
      let whole := m.eval (a ++ String.singleton c ++ b)
      let rest := (m.eval a).machine.eval b
      whole.trace = (m.eval a).trace ++ rest.trace ∧
      whole.journal = (m.eval a).journal ++ rest.journal ∧
      whole.machine = rest.machine ∧ whole.outcome = rest.outcome) ∧
    ∀ rest : List (Char × String), (∀ r ∈ rest, Text.isBlank r.1 = true) →
      m.eval (spliced a rest) = m.evalEach (a :: rest.map Prod.snd) := by
  have hcut : m.eval (a ++ String.singleton c ++ b) = m.run (wordsOf a ++ wordsOf b) := by
    rw [eval_eq_run, wordsOf_append_blank a b hc]
  have hiff : (m.eval a).outcome = .terminate ↔ ∃ w ∈ wordsOf a, w ∈ terminators :=
    m.outcome_run_eq_terminate_iff
  refine ⟨hiff, ?_, ?_, ?_⟩
  · intro h
    rw [hcut, run_append_of_exists m (hiff.mp h)]
    exact ⟨rfl, (m.machine_run_executed (wordsOf a)).symm⟩
  · intro h whole rest
    have hnone : ∀ w ∈ wordsOf a, w ∉ terminators := fun w hw ht => h (hiff.mpr ⟨w, hw, ht⟩)
    have hwhole : whole = rest.after (m.eval a).trace (m.eval a).journal :=
      hcut.trans (run_append_of_forall m hnone (wordsOf b))
    rw [hwhole]
    exact ⟨rfl, rfl, rfl, rfl⟩
  · intro rest hrest
    rw [eval_eq_run, wordsOf_spliced a hrest, evalEach_eq_run]

/-- An ideographic space cuts as a space does, and a termination word behind it is reached. -/
theorem eval_append_ideographic_space :
    Text.isBlank '\u3000' = true ∧
    (empty.eval "3 4").outcome ≠ .terminate ∧
    (empty.eval ("3 4" ++ String.singleton '\u3000' ++ "+ bye 5")).trace =
      (empty.eval "3 4").trace ++ ((empty.eval "3 4").machine.eval "+ bye 5").trace ∧
    (empty.eval ("3 4" ++ String.singleton '\u3000' ++ "+ bye 5")).outcome = .terminate := by
  have hc : Text.isBlank '\u3000' = true := by decide
  have ha : (empty.eval "3 4").outcome ≠ .terminate := by
    rw [Ne, eval_eq_run, outcome_run_eq_terminate_iff]
    decide
  obtain ⟨_, _, h, _⟩ := eval_append_blank empty "3 4" "+ bye 5" hc
  refine ⟨hc, ha, (h ha).1, (h ha).2.2.2.trans ?_⟩
  rw [eval_eq_run, outcome_run_eq_terminate_iff]
  decide

end Machine

end ReversePolish
