import ReversePolish.Proofs.Concatenation

/-!
# Rejected words

A rejected word leaves an error in the trace and a message about itself, and that is all. So
rejected words may be put in anywhere among the words of a phrase, or all be taken out, and nothing
else that an evaluation leaves is different.
-/

namespace ReversePolish

/-- The second list is the first one with extra elements put in. -/
inductive Interspersed {α : Type} (extra : α → Bool) : List α → List α → Prop
  | nil : Interspersed extra [] []
  | keep (a : α) {l k : List α} (h : Interspersed extra l k) : Interspersed extra (a :: l) (a :: k)
  | put {a : α} {l k : List α} (ha : extra a = true) (h : Interspersed extra l k) :
      Interspersed extra l (a :: k)

namespace Interspersed

variable {α : Type} {extra : α → Bool} {l k : List α}

theorem of_filter (extra : α → Bool) (k : List α) : Interspersed extra (k.filter (!extra ·)) k := by
  induction k with
  | nil => exact .nil
  | cons a k ih =>
    cases ha : extra a with
    | true => simpa [ha] using ih.put ha
    | false => simpa [ha] using ih.keep a

/-- Without any in the first list, the extra elements of the second are those put in. -/
theorem eq_filter (h : Interspersed extra l k) (hl : ∀ a ∈ l, extra a = false) :
    l = k.filter (!extra ·) := by
  induction h with
  | nil => rfl
  | keep a _ ih =>
    obtain ⟨ha, hl⟩ := List.forall_mem_cons.mp hl
    rw [List.filter_cons_of_pos (by simp [ha]), ← ih hl]
  | put ha _ ih => rw [List.filter_cons_of_neg (by simp [ha]), ← ih hl]

theorem append_left (h : Interspersed extra l k) (s : List α) :
    Interspersed extra (s ++ l) (s ++ k) := by
  induction s with
  | nil => exact h
  | cons a s ih => exact ih.keep a

end Interspersed

def Rejection.of? (w : String) : Option Rejection :=
  match Token.classify w with
  | .ok _ => none
  | .error defect => some ⟨w, defect⟩

def rejected (w : String) : Bool := (Rejection.of? w).isSome

def Entry.rejection? : Entry → Option Rejection
  | .error r => some r
  | .push _ | .apply .. => none

def Entry.isError (e : Entry) : Bool := e.rejection?.isSome

variable {w : String} {ws us : List String}

theorem of?_of_ok {t : Token} (h : Token.classify w = .ok t) : Rejection.of? w = none := by
  rw [Rejection.of?, h]

theorem of?_of_error {defect : Numeral.Defect} (h : Token.classify w = .error defect) :
    Rejection.of? w = some ⟨w, defect⟩ := by
  rw [Rejection.of?, h]

theorem exists_defect_of_rejected (h : rejected w = true) :
    ∃ defect, Token.classify w = .error defect := by
  cases hw : Token.classify w with
  | ok t =>
    rw [rejected, of?_of_ok hw] at h
    cases h
  | error defect => exact ⟨defect, rfl⟩

theorem not_terminator_of_error {defect : Numeral.Defect} (h : Token.classify w = .error defect) :
    w ∉ terminators := by
  intro hw
  rw [classify_eq_terminate_iff.mpr hw] at h
  cases h

/-- An evaluation like another one, with more errors among its entries and more said about words. -/
structure Evaluation.Riddled (ev ev' : Evaluation) : Prop where
  machine : ev'.machine = ev.machine
  outcome : ev'.outcome = ev.outcome
  journal : ev'.journal.filter (·.level ≠ .debug) = ev.journal.filter (·.level ≠ .debug)
  trace : Interspersed Entry.isError ev.trace ev'.trace

theorem Evaluation.Riddled.after {ev ev' : Evaluation} (h : ev.Riddled ev') (t : List Entry)
    (j : List Message) : (ev.after t j).Riddled (ev'.after t j) where
  machine := h.machine
  outcome := h.outcome
  journal := by simp only [Evaluation.after, List.filter_append, h.journal]
  trace := h.trace.append_left t

theorem wordsOf_of_mem {p : String} (h : w ∈ wordsOf p) : wordsOf w = [w] := by
  obtain ⟨s, hs, rfl⟩ := List.mem_map.mp h
  obtain ⟨hne, hsolid⟩ := Text.mem_words hs
  exact wordsOf_of_word (by simpa using hne) (by simpa using hsolid)

theorem flatMap_wordsOf (h : ∀ w ∈ ws, wordsOf w = [w]) : ws.flatMap wordsOf = ws := by
  induction ws with
  | nil => rfl
  | cons w ws ih =>
    obtain ⟨hw, hws⟩ := List.forall_mem_cons.mp h
    rw [List.flatMap_cons, hw, ih hws]
    rfl

/-- The words that are understood, with a space between each two. -/
def understood (p : String) : String :=
  (String.singleton ' ').intercalate ((wordsOf p).filter (!rejected ·))

theorem wordsOf_understood (p : String) :
    wordsOf (understood p) = (wordsOf p).filter (!rejected ·) := by
  rw [understood, wordsOf_intercalate_blank (by decide), flatMap_wordsOf]
  intro w hw
  exact wordsOf_of_mem (List.mem_filter.mp hw).1

namespace Machine

variable {m : Machine}

theorem Does.filterMap_rejection? {st : Step} (h : m.Does w st) :
    st.trace.filterMap Entry.rejection? = (Rejection.of? w).toList := by
  cases h with
  | reject h => rw [of?_of_error h]; rfl
  | clear h => rw [of?_of_ok h]; rfl
  | apply h => rw [of?_of_ok h]; rfl
  | push h => rw [of?_of_ok h]; rfl

variable (m)

theorem filterMap_rejection?_run (ws : List String) :
    (m.run ws).trace.filterMap Entry.rejection? = (executed ws).filterMap Rejection.of? :=
  m.filterMap_trace_run (fun _ _ _ h => h.filterMap_rejection?) ws

theorem riddled_run (h : Interspersed rejected us ws) : (m.run us).Riddled (m.run ws) := by
  induction h generalizing m with
  | nil => exact ⟨rfl, rfl, rfl, .nil⟩
  | keep w h ih =>
    by_cases hw : w ∈ terminators
    · rw [run_cons_terminator hw, run_cons_terminator hw]
      exact ⟨rfl, rfl, rfl, .nil⟩
    · rw [run_cons hw, run_cons hw]
      exact (ih (m.step w).machine).after _ _
  | put hr h ih =>
    obtain ⟨defect, hdefect⟩ := exists_defect_of_rejected hr
    rw [run_cons (not_terminator_of_error hdefect), step_of_error hdefect]
    exact ⟨(ih m).machine, (ih m).outcome, (ih m).journal, (ih m).trace.put rfl⟩

theorem isError_eq_false_of_run (h : ∀ w ∈ ws, rejected w = false) :
    ∀ e ∈ (m.run ws).trace, e.isError = false := by
  have hnone : (m.run ws).trace.filterMap Entry.rejection? = [] := by
    rw [filterMap_rejection?_run, List.filterMap_eq_nil_iff]
    intro w hw
    have hr := h w ((List.takeWhile_sublist _).subset hw)
    simpa [rejected] using hr
  intro e he
  rw [Entry.isError, List.filterMap_eq_nil_iff.mp hnone e he]
  rfl

/-- Rejected words change nothing but the errors and what is said about them, wherever they stand
among the words of a phrase. The errors are those of the rejected words that are reached. -/
theorem eval_isolates (p : String) :
    (∀ p', Interspersed rejected (wordsOf p) (wordsOf p') → (m.eval p).Riddled (m.eval p')) ∧
    (∀ p', wordsOf p' = (wordsOf p).filter (!rejected ·) →
      (m.eval p').Riddled (m.eval p) ∧
        (m.eval p').trace = (m.eval p).trace.filter (!Entry.isError ·)) ∧
    wordsOf (understood p) = (wordsOf p).filter (!rejected ·) ∧
    (m.eval p).trace.filterMap Entry.rejection? =
      (executed (wordsOf p)).filterMap Rejection.of? := by
  refine ⟨fun p' h => m.riddled_run h, ?_, wordsOf_understood p, m.filterMap_rejection?_run _⟩
  intro p' hp
  have hput : Interspersed rejected (wordsOf p') (wordsOf p) := by
    rw [hp]
    exact Interspersed.of_filter rejected (wordsOf p)
  have hriddled : (m.eval p').Riddled (m.eval p) := m.riddled_run hput
  have hnone : ∀ w ∈ wordsOf p', rejected w = false := by
    intro w hw
    rw [hp] at hw
    simpa using (List.mem_filter.mp hw).2
  exact ⟨hriddled, hriddled.trace.eq_filter (m.isError_eq_false_of_run hnone)⟩

/-- Words are rejected before and behind a clearing and next to a missing operand, and one that is
not reached. -/
theorem eval_isolates_in_line :
    understood "x 3 y clear 4\tz + exit q" = "3 clear 4 + exit" ∧
    (eval ⟨[Binary64.e]⟩ "x 3 y clear 4\tz + exit q").trace.filterMap Entry.rejection? =
      [⟨"x", .malformed⟩, ⟨"y", .malformed⟩, ⟨"z", .malformed⟩] ∧
    (eval ⟨[Binary64.e]⟩ "3 clear 4 + exit").trace =
      (eval ⟨[Binary64.e]⟩ "x 3 y clear 4\tz + exit q").trace.filter (!Entry.isError ·) ∧
    (eval ⟨[Binary64.e]⟩ "x 3 y clear 4\tz + exit q").machine =
      (eval ⟨[Binary64.e]⟩ "3 clear 4 + exit").machine := by
  obtain ⟨-, hwithout, -, herrors⟩ :=
    eval_isolates ⟨[Binary64.e]⟩ "x 3 y clear 4\tz + exit q"
  have hwords : wordsOf "3 clear 4 + exit" =
      (wordsOf "x 3 y clear 4\tz + exit q").filter (!rejected ·) := by decide
  obtain ⟨hriddled, htrace⟩ := hwithout "3 clear 4 + exit" hwords
  exact ⟨by decide, herrors.trans (by decide), htrace, hriddled.machine⟩

end Machine

end ReversePolish
