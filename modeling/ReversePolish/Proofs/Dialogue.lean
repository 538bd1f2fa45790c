import ReversePolish.Calls
import ReversePolish.Program

/-!
# Turns and sessions

A run takes turns with its input and logs as it goes: each message is weighed when it is told, and
what a turn writes is written before the next line is read. A session records all that happens, its
messages unweighed, and shows it at the end. Both tell the same (`Program.dialogue_eq_report`),
since a threshold that is applied along the way keeps the messages that it keeps of the whole
(`Machine.runLogged_eq`).
-/

namespace ReversePolish

theorem Threshold.note_eq (t : Threshold) (log : List Message) (msg : Message) :
    t.note log msg = log ++ t.filter [msg] := by
  cases h : t.admits msg.level <;> simp [note, filter, h]

theorem Threshold.filter_append (t : Threshold) (j k : List Message) :
    t.filter (j ++ k) = t.filter j ++ t.filter k := List.filter_append j k

namespace Machine

variable (t : Threshold) (m : Machine)

/-- A run does the same whatever is written of it, and writes what it would tell as far as the
threshold admits it. -/
theorem runLogged_eq (log : List Message) (ws : List String) :
    m.runLogged t log ws = { m.run ws with journal := log ++ t.filter (m.run ws).journal } := by
  induction ws generalizing m log with
  | nil => simp [runLogged, Threshold.filter]
  | cons w ws ih =>
    rw [runLogged, run]
    cases Token.classify w with
    | error defect =>
      simp only [ih, Threshold.note_eq, Evaluation.after, Threshold.filter_append,
        List.append_assoc, List.nil_append]
    | ok token =>
      cases h : m.effect? token with
      | none =>
        simp only [h, Threshold.note_eq, List.append_assoc, ← Threshold.filter_append]
        rfl
      | some eff =>
        simp only [h, ih, Threshold.note_eq, Evaluation.after, List.append_assoc, List.nil_append,
          ← Threshold.filter_append]
        rfl

theorem evalLogged_eq (p : String) :
    m.evalLogged t p = { m.eval p with journal := t.filter (m.eval p).journal } :=
  m.runLogged_eq t [] (wordsOf p)

end Machine

namespace Session

theorem text_after (t : Transcript) (b : Block) (journal : List Message) :
    (t.after b journal).text = b.text ++ t.text := by
  simp [Transcript.text, Transcript.after, String.append_assoc]

theorem block_evalLogged (t : Threshold) (m n : Machine) (p : String) :
    block m (n.evalLogged t p) = block m (n.eval p) := by
  rw [Machine.evalLogged_eq]
  rfl

end Session

namespace Program

def report (t : Threshold) (session : Session.Transcript) : Report where
  stdout := session.text
  stderr := logLines t session.journal ++ lastLines t session.machine session.ending
  code := exitCode session.ending

theorem logLines_append (t : Threshold) (j k : List Message) :
    logLines t (j ++ k) = logLines t j ++ logLines t k := by
  simp [logLines, Threshold.filter]

theorem report_after (t : Threshold) (session : Session.Transcript) (b : Session.Block)
    (journal : List Message) :
    report t (session.after b journal) =
      (report t session).after b.text (logLines t journal) := by
  simp only [report, Report.after, Session.text_after]
  simp only [Session.Transcript.after, logLines_append, List.append_assoc]

section Turns

variable {bytes : List UInt8} (t : Threshold) (m : Machine)

theorem respond_of_error {ending : Session.Ending} (h : Session.hear bytes = .error ending) :
    respond t m bytes = ⟨"", lastLines t m ending, .error (exitCode ending)⟩ := by
  rw [respond, h]

variable {p : String} (h : Session.hear bytes = .ok p)
include h

theorem respond_of_terminate (ho : (m.eval p).outcome = .terminate) :
    respond t m bytes =
      ⟨(Session.block m (m.eval p)).reply,
        logLines t (m.eval p).journal ++ lastLines t (m.eval p).machine .terminated,
        .error (exitCode .terminated)⟩ := by
  have hlogged : (m.evalLogged t p).outcome = .terminate := by
    rw [Machine.evalLogged_eq]
    exact ho
  simp only [respond, h, hlogged, Session.block_evalLogged]
  rw [Machine.evalLogged_eq]
  rfl

theorem respond_of_proceed {v : Float} (ho : (m.eval p).outcome = .proceed v) :
    respond t m bytes =
      ⟨(Session.block m (m.eval p)).reply, logLines t (m.eval p).journal,
        .ok (m.eval p).machine⟩ := by
  have hlogged : (m.evalLogged t p).outcome = .proceed v := by
    rw [Machine.evalLogged_eq]
    exact ho
  simp only [respond, h, hlogged, Session.block_evalLogged]
  rw [Machine.evalLogged_eq]
  rfl

end Turns

/-- Turn after turn a run writes what the session shows at its end. -/
theorem dialogue_eq_report (t : Threshold) (m : Machine) (ls : List (List UInt8)) :
    dialogue t m ls = report t (Session.run m ls) := by
  induction ls generalizing m with
  | nil =>
    simp [dialogue, Session.run, report, Session.Transcript.text, Session.lastPrompt, logLines,
      Threshold.filter]
  | cons l ls ih =>
    rw [dialogue, Session.run]
    cases hl : Session.hear l with
    | error ending =>
      rw [respond_of_error t m hl]
      rcases Session.ending_of_hear hl with rfl | rfl <;>
        simp [report, Session.Transcript.text, Session.lastPrompt, logLines, Threshold.filter]
    | ok p =>
      cases ho : (m.eval p).outcome with
      | terminate =>
        rw [respond_of_terminate t m hl ho]
        simp [report, Session.Transcript.text, Session.lastPrompt, Session.Block.text,
          Session.block, ho]
      | proceed v =>
        rw [respond_of_proceed t m hl ho]
        simp only [ho, ih, report_after]
        rfl

end Program

end ReversePolish
