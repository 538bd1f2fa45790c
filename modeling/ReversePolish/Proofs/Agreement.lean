import ReversePolish.Proofs.Conversation

/-!
# The program and the evaluator

A run of the program on a text and one evaluation of what is heard of the text tell the same. Where
the text holds no backspace, that is the text itself. Only whether the reader broke off can the
evaluation not tell.
-/

namespace ReversePolish

namespace Text

theorem mem_of_mem_linesOf {s : String} {l : List Char} (hl : l ∈ linesOf s) {c : Char}
    (hc : c ∈ l) : c ∈ s.toList := by
  have hflat : c ∈ (linesOf s).flatten := List.mem_flatten.mpr ⟨l, hl, hc⟩
  rwa [linesOf, flatten_cutAfter] at hflat

end Text

namespace Session

theorem phrase?_of_not_mem {s : String} (h : Text.backspace ∉ s.toList) :
    phrase? s = some (String.ofList (Text.chomp s.toList)) := by
  have hchomp : Text.backspace ∉ Text.chomp s.toList := fun hc => h (Text.mem_of_mem_chomp hc)
  rw [phrase?, Text.erase?_eq_some_self hchomp]
  rfl

theorem phrase?_of_small {s : String}
    (h : ∀ c ∈ Text.clusters (Text.chomp s.toList), Text.byteSize c < 256) :
    phrase? s = some (String.ofList
      (Text.survivors [] (Text.clusters (Text.chomp s.toList))).flatten) := by
  rw [phrase?, Text.erase?_of_small h]
  rfl

theorem phrase?_overlong : phrase? (String.ofList (Text.overlong ++ [Text.backspace])) = none := by
  have hchomp : Text.chomp (Text.overlong ++ [Text.backspace]) =
      Text.overlong ++ [Text.backspace] := by decide +kernel
  rw [phrase?, String.toList_ofList, hchomp, Text.erase?_overlong]
  rfl

/-- Where no cluster has 256 bytes, every line is heard, and each backspace takes a cluster. -/
theorem phrases?_of_small {s : String}
    (h : ∀ l ∈ Text.linesOf s, ∀ c ∈ Text.clusters (Text.chomp l), Text.byteSize c < 256) :
    phrases? s = (Text.linesOf s).map fun l =>
      some (String.ofList (Text.survivors [] (Text.clusters (Text.chomp l))).flatten) := by
  apply List.map_congr_left
  intro l hl
  rw [phrase?_of_small (by rw [String.toList_ofList]; exact h l hl), String.toList_ofList]

theorem phrases?_of_not_mem {s : String} (h : Text.backspace ∉ s.toList) :
    phrases? s = ((Text.linesOf s).map fun l => String.ofList (Text.chomp l)).map some := by
  rw [List.map_map]
  apply List.map_congr_left
  intro l hl
  have hno : Text.backspace ∉ (String.ofList l).toList := by
    rw [String.toList_ofList]
    exact fun hc => h (Text.mem_of_mem_linesOf hl hc)
  rw [phrase?_of_not_mem hno, String.toList_ofList]
  rfl

theorem none_not_mem_phrases?_of_not_mem {s : String} (h : Text.backspace ∉ s.toList) :
    none ∉ phrases? s := by
  rw [phrases?_of_not_mem h]
  simp

theorem wordsOf_heard {s : String} (h : Text.backspace ∉ s.toList) :
    wordsOf (heard s) = wordsOf s := by
  have hline : ∀ l ∈ Text.linesOf s,
      wordsOf (String.ofList (Text.chomp l)) = (Text.words l).map String.ofList := by
    intro l _
    rw [wordsOf, String.toList_ofList, Text.words_chomp]
  calc wordsOf (heard s)
      = (Text.linesOf s).flatMap fun l => wordsOf (String.ofList (Text.chomp l)) := by
        rw [heard, Machine.wordsOf_intercalate, phrases, phrases?_of_not_mem h, leading_map_some,
          List.flatMap_map]
    _ = (Text.linesOf s).flatMap fun l => (Text.words l).map String.ofList := by
        rw [List.flatMap_def, List.map_congr_left hline, List.flatMap_def]
    _ = wordsOf s := by
        rw [wordsOf, ← Text.flatMap_words_lines, List.map_flatMap]
        rfl

theorem eval_heard (m : Machine) {s : String} (h : Text.backspace ∉ s.toList) :
    m.eval (heard s) = m.eval s := by
  rw [Machine.eval_eq_run, Machine.eval_eq_run, wordsOf_heard h]

end Session

namespace Program

theorem logLines_trace (j : List Message) : logLines (some .trace) j = j.map logLine := by
  rw [logLines, Threshold.filter_trace]

/-- The log of a session ends with the farewell, unless a line could not be read. -/
theorem stderr_report {session : Session.Transcript} (h : session.ending ≠ .unreadable)
    (t : Threshold) :
    (report t session).stderr =
      logLines t (session.journal ++ Session.farewell session.machine session.ending) := by
  rw [logLines_append]
  cases he : session.ending with
  | unreadable => exact absurd he h
  | endOfInput | terminated | aborted => simp [report, lastLines, he]

theorem run_verbosityFlags (counts : List Nat) (setting : Option String) (input : List UInt8) :
    run (Request.verbosityFlags counts) setting input =
      report (Threshold.choose (UInt8.ofNat (Request.flagCount counts)) setting)
        (Session.run .empty (Text.lines input)) := by
  rw [run, Request.ofArguments_verbosityFlags, ← dialogue_eq_report]

theorem run_setting (counts : List Nat) (setting : LogSetting) (input : List UInt8) :
    run (Request.verbosityFlags counts) setting.text input =
      report (setting.threshold (UInt8.ofNat (Request.flagCount counts)))
        (Session.run .empty (Text.lines input)) := by
  rw [run_verbosityFlags, setting.choose_text]

/-- On every text a run tells what one evaluation of all that is heard of the text tells: line after
line the same trace, the same messages and operands. It ends as the evaluation does, or else with
the text or at the first line whose backspaces cannot be applied. -/
theorem run_agrees_with_eval (s : String) (counts : List Nat) (setting : LogSetting) :
    (Text.backspace ∉ s.toList →
      none ∉ Session.phrases? s ∧ ∀ m : Machine, m.eval (Session.heard s) = m.eval s) ∧
    ((∀ l ∈ Text.linesOf s, ∀ c ∈ Text.clusters (Text.chomp l), Text.byteSize c < 256) →
      Session.phrases? s = (Text.linesOf s).map fun l =>
        some (String.ofList (Text.survivors [] (Text.clusters (Text.chomp l))).flatten)) ∧
    let phrases := Session.phrases s
    let whole := Machine.empty.eval (Session.heard s)
    let lines := List.range (Session.read phrases).length
    let transcript := Session.run .empty (Text.lines (Text.utf8 s))
    let threshold := setting.threshold (UInt8.ofNat (Request.flagCount counts))
    let log := whole.journal ++
      if transcript.ending = .aborted then [] else [Message.ended whole.machine.operands.length]
    let result := run (Request.verbosityFlags counts) setting.text (Text.utf8 s)
    (lines.flatMap fun i => (Session.reply .empty phrases i).trace) = whole.trace ∧
    (transcript.ending = .terminated ∧ whole.outcome = .terminate ∨
      transcript.ending = .endOfInput ∧ whole.outcome ≠ .terminate ∧ none ∉ Session.phrases? s ∨
      transcript.ending = .aborted ∧ whole.outcome ≠ .terminate ∧ none ∈ Session.phrases? s) ∧
    transcript.journal = whole.journal ∧
    result.stderr = logLines threshold log ∧
    (threshold = some .trace → result.stderr = log.map logLine) ∧
    result.stdout =
      String.join (lines.map (Session.shown .empty phrases)) ++
        (if transcript.ending = .terminated then "" else whole.machine.prompt) ∧
    result.code = if transcript.ending = .aborted then 101 else 0 := by
  refine ⟨?_, Session.phrases?_of_small, ?_⟩
  · intro h
    exact ⟨Session.none_not_mem_phrases?_of_not_mem h, fun m => Session.eval_heard m h⟩
  intro phrases whole lines transcript threshold log result
  have hout : result = report threshold transcript := run_setting counts setting _
  obtain ⟨hmachine, hjournal, hends⟩ : transcript.machine = whole.machine ∧
      transcript.journal = whole.journal ∧
      (transcript.ending = .terminated ∧ whole.outcome = .terminate ∨
        transcript.ending = .endOfInput ∧ whole.outcome ≠ .terminate ∧ none ∉ Session.phrases? s ∨
        transcript.ending = .aborted ∧ whole.outcome ≠ .terminate ∧ none ∈ Session.phrases? s) :=
    Session.run_eq_eval_heard .empty s
  have hread : transcript.ending ≠ .unreadable := by
    rcases hends with ⟨h, -⟩ | ⟨h, -⟩ | ⟨h, -⟩ <;> simp [h]
  have hfarewell : Session.farewell transcript.machine transcript.ending =
      if transcript.ending = .aborted then [] else [.ended whole.machine.operands.length] := by
    rw [hmachine, Machine.length_operands]
    rcases hends with ⟨h, -⟩ | ⟨h, -⟩ | ⟨h, -⟩ <;> simp [h, Session.farewell]
  have hlog : result.stderr = logLines threshold log := by
    rw [hout, stderr_report hread, hjournal, hfarewell]
  have hshown : transcript.blocks.map Session.Block.text =
      lines.map (Session.shown .empty phrases) := by
    have hrun : transcript = Session.converse (Session.limit (Session.phrases? s)) .empty phrases :=
      Session.run_utf8 _ s
    rw [hrun, Session.blocks_converse, List.map_map]
    exact List.map_congr_left fun i _ => Session.text_block_reply _ _ i
  refine ⟨?_, hends, hjournal, hlog, ?_, ?_, ?_⟩
  · have hwhole : whole = Machine.empty.evalEach phrases := Machine.eval_intercalate _ _
    rw [hwhole]
    exact Session.flatMap_trace_reply .empty phrases
  · intro ht
    rw [hlog, ht, logLines_trace]
  · have hstdout : result.stdout = transcript.text := by
      rw [hout]
      rfl
    rw [hstdout, Session.Transcript.text, hshown, hmachine]
    rcases hends with ⟨h, -⟩ | ⟨h, -⟩ | ⟨h, -⟩ <;> simp [h, Session.lastPrompt]
  · have hcode : result.code = exitCode transcript.ending := by
      rw [hout]
      rfl
    rw [hcode]
    rcases hends with ⟨h, -⟩ | ⟨h, -⟩ | ⟨h, -⟩ <;> simp [h, exitCode]

/-- What a backspace takes away is not heard, while an evaluation of the text meets it. And a run
can end neither with the text nor as an evaluation does. -/
theorem blocks_run_ne_trace_eval :
    (Session.run .empty (Text.lines (Text.utf8 "3\x084\n"))).blocks.flatMap
        (fun b => b.trace.map Entry.text) ≠
      (Machine.empty.eval "3\x084\n").trace.map Entry.text ∧
    (Session.run .empty (Text.lines (Text.utf8
      (String.ofList (Text.overlong ++ [Text.backspace]))))).ending = .aborted := by
  rw [Session.run_utf8, Session.run_utf8]
  have hphrases : Session.phrases? (String.ofList (Text.overlong ++ [Text.backspace])) =
      [none] := by
    have hlines : Text.linesOf (String.ofList (Text.overlong ++ [Text.backspace])) =
        [Text.overlong ++ [Text.backspace]] := by decide +kernel
    rw [Session.phrases?, hlines, List.map_singleton, Session.phrase?_overlong]
  refine ⟨by decide +kernel, ?_⟩
  rw [Session.phrases, hphrases]
  rfl

end Program

end ReversePolish
