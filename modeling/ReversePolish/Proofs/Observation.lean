import ReversePolish.Proofs.Agreement

/-!
# Logging and the calculation

A threshold decides which messages are written, one by one as they are told, and nothing else
follows from it: calls that write their log as they go do what the same calls do unobserved
(`Machine.callsLogged_eq`), as the turns of a session do. Each line of the log shows its level, so
the log under a threshold can be read off the lines of the log under the least severe one
(`Program.stderr_report_filter`), and a report that the input could not be read stands behind
either.
-/

namespace ReversePolish

def Reply.under (t : Threshold) (r : Reply) : Reply := { r with journal := t.filter r.journal }

theorem Reply.under_trace (r : Reply) : r.under (some .trace) = r := by
  rw [under, Threshold.filter_trace]

/-- What a reply tells besides its messages. -/
def Reply.result (r : Reply) : Machine × List Entry × Option Outcome :=
  (r.machine, r.trace, r.outcome?)

namespace Machine

variable (t : Threshold) (m : Machine)

theorem callLogged_eq (c : Call) : m.callLogged t c = (m.call c).under t := by
  cases c with
  | eval p =>
    rw [callLogged, evalLogged_eq]
    rfl
  | clear =>
    rw [callLogged, Threshold.note_eq]
    rfl

theorem callsLogged_eq (cs : List Call) :
    m.callsLogged t cs = (m.calls cs).map (Reply.under t) := by
  induction cs generalizing m with
  | nil => rfl
  | cons c cs ih =>
    rw [callsLogged, callLogged_eq, ih, calls, List.map_cons]
    rfl

theorem callsLogged_trace (cs : List Call) : m.callsLogged (some .trace) cs = m.calls cs := by
  have hunder : Reply.under (some .trace) = id := funext Reply.under_trace
  rw [callsLogged_eq, hunder, List.map_id]

theorem result_callsLogged (cs : List Call) :
    (m.callsLogged t cs).map Reply.result = (m.calls cs).map Reply.result := by
  rw [callsLogged_eq, List.map_map]
  rfl

end Machine

namespace Program

def logHead (l : Level) : String :=
  "[" ++ String.ofList (l.name.toList.rightpad 5 ' ') ++ " " ++ programName ++ "] "

/-- The level that a line shows, if it is one of the log. -/
def levelOfLine? (line : String) : Option Level :=
  [.error, .warn, .info, .debug, .trace].find? fun l =>
    (logHead l).toList.isPrefixOf line.toList

/-- Whether a line is to be seen under a threshold: one of the log if its level is admitted, and any
other. -/
def passes (t : Threshold) (line : String) : Bool := (levelOfLine? line).all t.admits

theorem logLine_eq (m : Message) : logLine m = logHead m.level ++ m.text := rfl

theorem levelOfLine?_logLine (m : Message) : levelOfLine? (logLine m) = some m.level := by
  rw [logLine_eq, levelOfLine?, String.toList_append]
  generalize m.text.toList = s
  cases m.level <;> rfl

theorem passes_logLine (t : Threshold) (m : Message) : passes t (logLine m) = t.admits m.level := by
  rw [passes, levelOfLine?_logLine]
  rfl

theorem passes_of_mem_failure (t : Threshold) {line : String} (h : line ∈ failure) :
    passes t line = true := by
  have hall : ∀ l ∈ failure, levelOfLine? l = none := by decide
  rw [passes, hall line h]
  rfl

theorem filter_logLines_trace (t : Threshold) (j : List Message) :
    (logLines (some .trace) j).filter (passes t) = logLines t j := by
  have hcomp : passes t ∘ logLine = fun m => t.admits m.level := by
    funext m
    rw [Function.comp_apply, passes_logLine]
  rw [logLines_trace, List.filter_map, hcomp]
  rfl

theorem stderr_report_trace (session : Session.Transcript) :
    (report (some .trace) session).stderr =
      (session.journal ++ Session.farewell session.machine session.ending).map logLine ++
        if session.ending = .unreadable then failure else [] := by
  simp only [report, lastLines, logLines_trace, List.map_append, List.append_assoc]
  cases session.ending <;> rfl

/-- The lines under a threshold are those under the least severe one that it lets pass. -/
theorem stderr_report_filter (t : Threshold) (session : Session.Transcript) :
    (report t session).stderr = (report (some .trace) session).stderr.filter (passes t) := by
  have hfailure : failure.filter (passes t) = failure :=
    List.filter_eq_self.mpr fun _ => passes_of_mem_failure t
  simp only [report, lastLines, List.filter_append, filter_logLines_trace]
  cases session.ending with
  | unreadable => simp only [hfailure]
  | endOfInput | terminated | aborted => rfl

end Program

namespace Program

/-- Verbosity and log settings decide which messages of a run are seen, and nothing else: not what
it answers and how it ends, and not what is said if the input cannot be read. The same is true of
calls. -/
theorem run_under_thresholds (input : List UInt8) :
    (∀ verbosity level t, Threshold.ofName? level.toList = some t →
      Threshold.choose verbosity none = some (Level.ofVerbosity verbosity) ∧
      Threshold.choose verbosity (some level) = t ∧
      Threshold.choose verbosity (some (programName ++ "=" ++ level)) = t ∧
      ∀ other : String, '=' ∉ other.toList → ¬ other.toList <+: programName.toList →
        Threshold.choose verbosity (some (other ++ "=" ++ level)) =
          Threshold.choose verbosity none) ∧
    (∀ (m : Machine) (cs : List Call) (t t' : Threshold),
      (m.callsLogged t cs).map Reply.result = (m.callsLogged t' cs).map Reply.result ∧
      m.callsLogged t cs = (m.callsLogged (some .trace) cs).map (Reply.under t) ∧
      m.callsLogged (some .trace) cs = m.calls cs) ∧
    let threshold (counts : List Nat) (setting : Option String) :=
      Threshold.choose (UInt8.ofNat (Request.flagCount counts)) setting
    let session := Session.run .empty (Text.lines input)
    let told := session.journal ++ Session.farewell session.machine session.ending
    ∀ counts setting counts' setting',
      let here := run (Request.verbosityFlags counts) setting input
      let there := run (Request.verbosityFlags counts') setting' input
      here.stdout = there.stdout ∧ here.code = there.code ∧
      (threshold counts' setting' = some .trace →
        here.stderr = there.stderr.filter (passes (threshold counts setting)) ∧
        there.stderr =
          told.map logLine ++ if session.ending = .unreadable then failure else []) := by
  refine ⟨?_, ?_, ?_⟩
  · intro verbosity level t h
    exact ⟨rfl, Threshold.choose_setting verbosity h⟩
  · intro m cs t t'
    rw [Machine.result_callsLogged, Machine.result_callsLogged, Machine.callsLogged_trace]
    exact ⟨rfl, Machine.callsLogged_eq t m cs, rfl⟩
  · intro threshold session told counts setting counts' setting' here there
    have hhere : here = report (threshold counts setting) session :=
      run_verbosityFlags counts setting input
    have hthere : there = report (threshold counts' setting') session :=
      run_verbosityFlags counts' setting' input
    refine ⟨by rw [hhere, hthere]; rfl, by rw [hhere, hthere]; rfl, ?_⟩
    intro ht
    rw [hhere, hthere, ht]
    exact ⟨stderr_report_filter _ session, stderr_report_trace session⟩

/-- A setting shows of the log of four flags what its own level admits. -/
theorem run_under_thresholds_info :
    let input := Text.utf8 "3 clear bye\n"
    let there := run (Request.verbosityFlags [3]) none input
    let here := run (Request.verbosityFlags []) (some "rpncalc=info") input
    Threshold.ofName? "info".toList = some (some .info) ∧
    Threshold.choose (UInt8.ofNat (Request.flagCount [3])) none = some .trace ∧
    here.stderr = there.stderr.filter (passes (some .info)) ∧ here.stdout = there.stdout ∧
    Threshold.choose 1 (some "rustyline=off") = Threshold.choose 1 none := by
  intro input there here
  obtain ⟨hsettings, -, hruns⟩ := run_under_thresholds input
  have hinfo : Threshold.ofName? "info".toList = some (some .info) := by decide
  have hoff : Threshold.ofName? "off".toList = some none := by decide
  have htrace : Threshold.choose (UInt8.ofNat (Request.flagCount [3])) none = some .trace := by
    decide
  obtain ⟨hstdout, -, hstderr⟩ := hruns [] (some "rpncalc=info") [3] none
  obtain ⟨-, -, hthreshold, -⟩ := hsettings 0 "info" (some .info) hinfo
  obtain ⟨-, -, -, hother⟩ := hsettings 1 "off" none hoff
  refine ⟨hinfo, htrace, ?_, hstdout, hother "rustyline" (by decide) (by decide)⟩
  rw [← hthreshold]
  exact (hstderr htrace).1

end Program

end ReversePolish
