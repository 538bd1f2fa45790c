import ReversePolish.Proofs.Concatenation
import ReversePolish.Proofs.Dialogue
import ReversePolish.Proofs.Erasure
import ReversePolish.Proofs.Verbosity

/-!
# A session as one evaluation

A session cuts its input into lines and evaluates one after another on the same machine. Lines are
cut at white space, so the traces, messages and operands of the whole session are those of one
evaluation of all that was heard. What is heard of a line is what its backspaces leave of it, and
that is all of it where there are none. Nothing is heard from the first line on whose backspaces
cannot be applied.
-/

namespace ReversePolish

namespace Session

/-- The phrase of each line of a text, where its backspaces can be applied. -/
def phrases? (s : String) : List (Option String) :=
  (Text.linesOf s).map fun l => phrase? (String.ofList l)

/-- What is heard before the first line of which nothing is heard. -/
def leading {α : Type} : List (Option α) → List α
  | some a :: as => a :: leading as
  | none :: _ | [] => []

/-- How a session ends on lines of which none asks for the end. -/
def limit {α : Type} : List (Option α) → Ending
  | some _ :: as => limit as
  | none :: _ => .aborted
  | [] => .endOfInput

def phrases (s : String) : List String := leading (phrases? s)

def heard (s : String) : String := "\n".intercalate (phrases s)

def asks (p : String) : Bool := (wordsOf p).any fun w => w ∈ terminators

/-- The phrases up to the first that asks for the end, with it. -/
def read (ps : List String) : List String := ps.take (ps.findIdx asks + 1)

/-- The machine that the phrases before an index leave, evaluated as one. -/
def before (m : Machine) (ps : List String) (i : Nat) : Machine :=
  (m.eval ("\n".intercalate (ps.take i))).machine

def reply (m : Machine) (ps : List String) (i : Nat) : Evaluation :=
  (before m ps i).eval (ps.getD i "")

/-- What the phrase at an index shows: the prompt of the machine before it, its trace, and the
answer of the machine behind it unless it asks for the end. -/
def shown (m : Machine) (ps : List String) (i : Nat) : String :=
  (before m ps i).prompt ++
    String.join ((reply m ps i).trace.map fun entry => entry.text ++ "\n") ++
    if asks (ps.getD i "") then "" else showFloat (reply m ps i).machine.answer ++ "\n"

end Session

namespace Machine

variable (m : Machine)

theorem wordsOf_intercalate (ps : List String) :
    wordsOf ("\n".intercalate ps) = ps.flatMap wordsOf :=
  wordsOf_intercalate_blank (c := '\n') (by decide) ps

theorem eval_intercalate (ps : List String) :
    m.eval ("\n".intercalate ps) = m.evalEach ps := by
  rw [eval_eq_run, wordsOf_intercalate, evalEach_eq_run]

theorem outcome_eval_of_asks {p : String} (h : Session.asks p = true) :
    (m.eval p).outcome = .terminate := by
  rw [eval_eq_run, outcome_run_eq_terminate_iff]
  simpa [Session.asks] using h

theorem outcome_eval_of_not_asks {p : String} (h : Session.asks p = false) :
    (m.eval p).outcome = .proceed (m.eval p).machine.answer := by
  have hp : ∀ w ∈ wordsOf p, w ∉ terminators := by simpa [Session.asks] using h
  exact m.outcome_run_of_forall hp

theorem evalEach_cons_of_asks {p : String} (h : Session.asks p = true) (ps : List String) :
    m.evalEach (p :: ps) = m.eval p := by
  rw [evalEach, Evaluation.andThen_of_terminate (m.outcome_eval_of_asks h)]

theorem evalEach_cons_of_not_asks {p : String} (h : Session.asks p = false) (ps : List String) :
    m.evalEach (p :: ps) =
      ((m.eval p).machine.evalEach ps).after (m.eval p).trace (m.eval p).journal := by
  rw [evalEach, Evaluation.andThen_of_proceed (m.outcome_eval_of_not_asks h)]

end Machine

namespace Session

variable (m : Machine)

/-- A session over phrases, with what ends it behind them. -/
def converse (last : Ending) (m : Machine) : List String → Transcript
  | [] => ⟨[], last, m, []⟩
  | p :: ps =>
    match (m.eval p).outcome with
    | .terminate => ⟨[block m (m.eval p)], .terminated, (m.eval p).machine, (m.eval p).journal⟩
    | .proceed _ =>
      (converse last (m.eval p).machine ps).after (block m (m.eval p)) (m.eval p).journal

section Hearing

variable {α β : Type} {as : List (Option α)}

theorem limit_eq_aborted_iff : limit as = .aborted ↔ none ∈ as := by
  induction as with
  | nil => simp [limit]
  | cons a as ih => cases a <;> simp [limit, ih]

theorem limit_eq_endOfInput_iff : limit as = .endOfInput ↔ none ∉ as := by
  induction as with
  | nil => simp [limit]
  | cons a as ih => cases a <;> simp [limit, ih]

theorem limit_map (f : α → β) (as : List (Option α)) :
    limit (as.map (Option.map f)) = limit as := by
  induction as with
  | nil => rfl
  | cons a as ih => cases a <;> simp [limit, ih]

theorem leading_map (f : α → β) (as : List (Option α)) :
    leading (as.map (Option.map f)) = (leading as).map f := by
  induction as with
  | nil => rfl
  | cons a as ih => cases a <;> simp [leading, ih]

theorem leading_map_some (as : List α) : leading (as.map some) = as := by
  induction as with
  | nil => rfl
  | cons a as ih => exact congrArg (a :: ·) ih

end Hearing

/-- A session over lines of text is one over the phrases that are heard of them. -/
theorem run_lines (ls : List (List Char)) :
    run m (ls.map (List.flatMap String.utf8EncodeChar)) =
      converse (limit (ls.map fun l => phrase? (String.ofList l))) m
        (leading (ls.map fun l => phrase? (String.ofList l))) := by
  induction ls generalizing m with
  | nil => rfl
  | cons l ls ih =>
    have hdecode := Text.decode_flatMap_utf8EncodeChar l
    cases hp : phrase? (String.ofList l) with
    | none =>
      have hhear := hear_of_phrase?_eq_none hdecode hp
      simp only [List.map_cons, run, hhear, hp, leading, limit, converse]
    | some p =>
      have hhear := hear_of_phrase? hdecode hp
      cases ho : (m.eval p).outcome with
      | terminate => simp only [List.map_cons, run, converse, hhear, hp, leading, ho]
      | proceed v => simp only [List.map_cons, run, converse, hhear, hp, leading, limit, ho, ih]

theorem run_utf8 (s : String) :
    run m (Text.lines (Text.utf8 s)) = converse (limit (phrases? s)) m (phrases s) := by
  rw [Text.lines_utf8, run_lines]
  rfl

variable (last : Ending)

theorem converse_cons_of_asks {p : String} (h : asks p = true) (ps : List String) :
    converse last m (p :: ps) =
      ⟨[block m (m.eval p)], .terminated, (m.eval p).machine, (m.eval p).journal⟩ := by
  simp [converse, m.outcome_eval_of_asks h]

theorem converse_cons_of_not_asks {p : String} (h : asks p = false) (ps : List String) :
    converse last m (p :: ps) =
      (converse last (m.eval p).machine ps).after (block m (m.eval p)) (m.eval p).journal := by
  simp [converse, m.outcome_eval_of_not_asks h]

/-- A session and one evaluation after another end on the same machine with the same messages, and
for the same reason. -/
theorem converse_eq_evalEach (ps : List String) :
    (converse last m ps).machine = (m.evalEach ps).machine ∧
    (converse last m ps).journal = (m.evalEach ps).journal ∧
    ((converse last m ps).ending = .terminated ∧ (m.evalEach ps).outcome = .terminate ∨
      (converse last m ps).ending = last ∧ (m.evalEach ps).outcome ≠ .terminate) := by
  induction ps generalizing m with
  | nil => exact ⟨rfl, rfl, Or.inr ⟨rfl, nofun⟩⟩
  | cons p ps ih =>
    cases h : asks p with
    | true =>
      rw [converse_cons_of_asks m last h, m.evalEach_cons_of_asks h]
      exact ⟨rfl, rfl, Or.inl ⟨rfl, m.outcome_eval_of_asks h⟩⟩
    | false =>
      rw [converse_cons_of_not_asks m last h, m.evalEach_cons_of_not_asks h]
      obtain ⟨hm, hj, he⟩ := ih (m.eval p).machine
      exact ⟨hm, congrArg _ hj, he⟩

/-- A session on a text ends as one evaluation of all that is heard of the text does, or else with
the text or at its first line that cannot be heard. -/
theorem run_eq_eval_heard (s : String) :
    let told := run m (Text.lines (Text.utf8 s))
    let whole := m.eval (heard s)
    told.machine = whole.machine ∧ told.journal = whole.journal ∧
    (told.ending = .terminated ∧ whole.outcome = .terminate ∨
      told.ending = .endOfInput ∧ whole.outcome ≠ .terminate ∧ none ∉ phrases? s ∨
      told.ending = .aborted ∧ whole.outcome ≠ .terminate ∧ none ∈ phrases? s) := by
  intro told whole
  have hwhole : whole = m.evalEach (phrases s) := m.eval_intercalate (phrases s)
  have htold : told = converse (limit (phrases? s)) m (phrases s) := run_utf8 m s
  rw [hwhole, htold]
  obtain ⟨hmachine, hjournal, hend | ⟨hend, ho⟩⟩ :=
    converse_eq_evalEach m (limit (phrases? s)) (phrases s)
  · exact ⟨hmachine, hjournal, Or.inl hend⟩
  · refine ⟨hmachine, hjournal, Or.inr ?_⟩
    by_cases hnone : none ∈ phrases? s
    · exact Or.inr ⟨hend.trans (limit_eq_aborted_iff.mpr hnone), ho, hnone⟩
    · exact Or.inl ⟨hend.trans (limit_eq_endOfInput_iff.mpr hnone), ho, hnone⟩

theorem read_cons_of_asks {p : String} (h : asks p = true) (ps : List String) :
    read (p :: ps) = [p] := by
  simp [read, List.findIdx_cons, h]

theorem read_cons_of_not_asks {p : String} (h : asks p = false) (ps : List String) :
    read (p :: ps) = p :: read ps := by
  simp [read, List.findIdx_cons, h]

theorem before_zero (ps : List String) : before m ps 0 = m := by
  rw [before, List.take_zero]
  rfl

theorem before_succ {p : String} (h : asks p = false) (ps : List String) (i : Nat) :
    before m (p :: ps) (i + 1) = before (m.eval p).machine ps i := by
  rw [before, before, Machine.eval_intercalate, Machine.eval_intercalate, List.take_succ_cons,
    m.evalEach_cons_of_not_asks h]
  rfl

theorem reply_zero (p : String) (ps : List String) : reply m (p :: ps) 0 = m.eval p := by
  rw [reply, before_zero]
  rfl

theorem reply_succ {p : String} (h : asks p = false) (ps : List String) (i : Nat) :
    reply m (p :: ps) (i + 1) = reply (m.eval p).machine ps i := by
  rw [reply, before_succ m h]
  rfl

/-- The line at an index finds the machine that the lines before it left, evaluated as one. -/
theorem blocks_converse (ps : List String) :
    (converse last m ps).blocks =
      (List.range (read ps).length).map fun i => block (before m ps i) (reply m ps i) := by
  induction ps generalizing m with
  | nil => rfl
  | cons p ps ih =>
    cases h : asks p with
    | true =>
      rw [converse_cons_of_asks m last h, read_cons_of_asks h]
      simp [before_zero, reply_zero]
    | false =>
      rw [converse_cons_of_not_asks m last h, read_cons_of_not_asks h, List.length_cons,
        List.range_succ_eq_map]
      simp only [Transcript.after, ih, List.map_cons, List.map_map, before_zero, reply_zero]
      refine congrArg (List.cons _) (List.map_congr_left ?_)
      intro i _
      simp only [Function.comp, Nat.succ_eq_add_one, before_succ m h, reply_succ m h]

theorem flatMap_trace_reply (ps : List String) :
    ((List.range (read ps).length).flatMap fun i => (reply m ps i).trace) =
      (m.evalEach ps).trace := by
  induction ps generalizing m with
  | nil => rfl
  | cons p ps ih =>
    cases h : asks p with
    | true =>
      rw [read_cons_of_asks h, m.evalEach_cons_of_asks h]
      simp [reply_zero]
    | false =>
      rw [read_cons_of_not_asks h, m.evalEach_cons_of_not_asks h, List.length_cons,
        List.range_succ_eq_map, List.flatMap_cons, List.flatMap_map, reply_zero]
      simp only [Evaluation.after, Nat.succ_eq_add_one, reply_succ m h, ih]

theorem text_block_reply (ps : List String) (i : Nat) :
    (block (before m ps i) (reply m ps i)).text = shown m ps i := by
  rw [Block.text, Block.reply, shown, String.append_assoc]
  cases h : asks (ps.getD i "") with
  | true =>
    have ho : (reply m ps i).outcome = .terminate := Machine.outcome_eval_of_asks _ h
    simp [block, ho, line]
  | false =>
    have ho : (reply m ps i).outcome = .proceed (reply m ps i).machine.answer :=
      Machine.outcome_eval_of_not_asks _ h
    simp [block, ho, line]

end Session

end ReversePolish
