import ReversePolish.Proofs.Agreement

/-!
# Input that cannot be read

A session reads its lines one by one, so what stands behind a line cannot change what came before
it. A line that is not UTF-8, or whose backspaces cannot be applied, ends a session where the end of
the input would have ended it, but without the last message (`run_of_hear_error`), and behind a line
that asks for the end nothing is read at all (`run_of_stops`). Which of them comes first decides the
exit code.
-/

namespace ReversePolish

namespace Text

def IsUtf8 (l : List UInt8) : Prop := ∃ s, utf8 s = l

theorem decode_eq_some_iff {l : List UInt8} {s : String} : decode l = some s ↔ utf8 s = l := by
  constructor
  · intro h
    rw [decode, String.fromUTF8?] at h
    split at h
    · cases h
      rfl
    · cases h
  · rintro rfl
    rw [utf8_eq_flatMap, decode_flatMap_utf8EncodeChar, String.ofList_toList]

theorem decode_eq_none_iff {l : List UInt8} : decode l = none ↔ ¬ IsUtf8 l := by
  simp [IsUtf8, Option.eq_none_iff_forall_ne_some, decode_eq_some_iff]

/-- The first pieces of a list that was cut are those of what they hold. -/
theorem cutAfter_flatten_of_append {α : Type} {ends : α → Bool} {s : List α}
    {ps qs : List (List α)} (h : cutAfter ends s = ps ++ qs) :
    cutAfter ends ps.flatten = ps := by
  induction s using lines_induction ends generalizing ps with
  | nil =>
    obtain ⟨rfl, -⟩ := List.nil_eq_append_iff.mp h
    rfl
  | rest a ha hne =>
    rw [cutAfter_rest ha hne] at h
    cases ps with
    | nil => rfl
    | cons p ps =>
      obtain ⟨rfl, hps⟩ := List.cons.inj h
      obtain ⟨rfl, -⟩ := List.nil_eq_append_iff.mp hps
      simpa using cutAfter_rest ha hne
  | line a x b ha hx ih =>
    rw [cutAfter_line ha hx] at h
    cases ps with
    | nil => rfl
    | cons p ps =>
      obtain ⟨rfl, hps⟩ := List.cons.inj h
      rw [List.flatten_cons, List.append_assoc, List.singleton_append, cutAfter_line ha hx, ih hps]

end Text

namespace Machine

theorem ended_not_mem_journal_run (m : Machine) (ws : List String) (k : Nat) :
    .ended k ∉ (m.run ws).journal := by
  intro hmem
  rcases m.exists_step_of_mem_journal hmem with ⟨n, w, -, hw, hstep⟩ | ⟨w, -, -, hmsg⟩
  · generalize n.step w = st, does_step hw = h at hstep
    cases h <;> simp at hstep
  · simp at hmsg

end Machine

namespace Session

open Text (IsUtf8)

/-- Whether a line of bytes spells a text with a word that asks for the end, when its backspaces are
applied. -/
def Stops (l : List UInt8) : Prop :=
  ∃ s, Text.utf8 s = l ∧ ∃ p, phrase? s = some p ∧ ∃ w ∈ wordsOf p, w ∈ terminators

/-- Whether a line of bytes spells a text whose backspaces cannot be applied. -/
def Aborts (l : List UInt8) : Prop := ∃ s, Text.utf8 s = l ∧ phrase? s = none

/-- Whether a session goes on behind a line. -/
def Passes (l : List UInt8) : Prop := IsUtf8 l ∧ ¬ Stops l ∧ ¬ Aborts l

theorem eq_of_utf8_eq {s t : String} (h : Text.utf8 s = Text.utf8 t) : s = t := by
  rw [← Text.decode_eq_some_iff, Text.decode_eq_some_iff.mpr rfl] at h
  exact (Option.some.inj h).symm

theorem aborts_utf8_iff {s : String} : Aborts (Text.utf8 s) ↔ phrase? s = none := by
  constructor
  · rintro ⟨t, ht, h⟩
    rwa [← eq_of_utf8_eq ht]
  · exact fun h => ⟨s, rfl, h⟩

theorem stops_utf8_iff {s p : String} (h : phrase? s = some p) :
    Stops (Text.utf8 s) ↔ ∃ w ∈ wordsOf p, w ∈ terminators := by
  constructor
  · rintro ⟨t, ht, q, hq, hw⟩
    rw [eq_of_utf8_eq ht, h] at hq
    cases hq
    exact hw
  · exact fun hw => ⟨s, rfl, p, h, hw⟩

theorem stops_utf8_iff_of_not_mem {s : String} (h : Text.backspace ∉ s.toList) :
    Stops (Text.utf8 s) ↔ ∃ w ∈ wordsOf s, w ∈ terminators := by
  have hwords : wordsOf (String.ofList (Text.chomp s.toList)) = wordsOf s := by
    rw [wordsOf, String.toList_ofList, Text.words_chomp, wordsOf]
  rw [stops_utf8_iff (phrase?_of_not_mem h), hwords]

theorem not_aborts_of_not_mem {s : String} (h : Text.backspace ∉ s.toList) :
    ¬ Aborts (Text.utf8 s) := by
  rw [aborts_utf8_iff, phrase?_of_not_mem h]
  exact nofun

theorem not_aborts_of_small {s : String}
    (h : ∀ c ∈ Text.clusters (Text.chomp s.toList), Text.byteSize c < 256) :
    ¬ Aborts (Text.utf8 s) := by
  rw [aborts_utf8_iff, phrase?_of_small h]
  exact nofun

variable {l : List UInt8}

theorem hear_of_not_isUtf8 (h : ¬ IsUtf8 l) : hear l = .error .unreadable :=
  hear_of_decode_eq_none (Text.decode_eq_none_iff.mpr h)

theorem hear_of_aborts (h : Aborts l) : hear l = .error .aborted := by
  obtain ⟨s, hs, hp⟩ := h
  exact hear_of_phrase?_eq_none (Text.decode_eq_some_iff.mpr hs) hp

theorem exists_hear_of_stops (h : Stops l) :
    ∃ p, hear l = .ok p ∧ ∃ w ∈ wordsOf p, w ∈ terminators := by
  obtain ⟨s, hs, p, hp, hw⟩ := h
  exact ⟨p, hear_of_phrase? (Text.decode_eq_some_iff.mpr hs) hp, hw⟩

theorem exists_hear_of_passes (h : Passes l) :
    ∃ p, hear l = .ok p ∧ ∀ w ∈ wordsOf p, w ∉ terminators := by
  obtain ⟨⟨s, hs⟩, hstops, haborts⟩ := h
  have hphrase : phrase? s ≠ none := fun hp => haborts ⟨s, hs, hp⟩
  obtain ⟨p, hp⟩ := Option.ne_none_iff_exists'.mp hphrase
  have hhear := hear_of_phrase? (Text.decode_eq_some_iff.mpr hs) hp
  exact ⟨p, hhear, fun w hw ht => hstops ⟨s, hs, p, hp, w, hw, ht⟩⟩

variable {ls heard : List (List UInt8)} (m : Machine)

theorem run_cons_of_stops (h : Stops l) (ls : List (List UInt8)) :
    run m (l :: ls) = run m [l] ∧ (run m [l]).ending = .terminated := by
  obtain ⟨p, hp, hw⟩ := exists_hear_of_stops h
  have ho : (m.eval p).outcome = .terminate := m.outcome_run_eq_terminate_iff.mpr hw
  simp [run, hp, ho]

theorem run_cons_of_passes (h : Passes l) :
    ∃ n b j, ∀ ls, run m (l :: ls) = (run n ls).after b j := by
  obtain ⟨p, hp, hw⟩ := exists_hear_of_passes h
  have ho : (m.eval p).outcome = .proceed (m.eval p).machine.answer := m.outcome_run_of_forall hw
  refine ⟨(m.eval p).machine, block m (m.eval p), (m.eval p).journal, ?_⟩
  intro ls
  simp [run, hp, ho]

theorem ended_not_mem_journal_run (ls : List (List UInt8)) (k : Nat) :
    .ended k ∉ (run m ls).journal := by
  induction ls generalizing m with
  | nil => exact List.not_mem_nil
  | cons l ls ih =>
    rw [run]
    cases hl : hear l with
    | error ending => exact List.not_mem_nil
    | ok p =>
      have hfirst := m.ended_not_mem_journal_run (wordsOf p) k
      cases ho : (m.eval p).outcome with
      | terminate =>
        simp only [ho]
        exact hfirst
      | proceed v =>
        simp only [ho]
        exact List.not_mem_append hfirst (ih (m.eval p).machine)

theorem ending_run_of_passes (h : ∀ l ∈ ls, Passes l) : (run m ls).ending = .endOfInput := by
  induction ls generalizing m with
  | nil => rfl
  | cons l ls ih =>
    obtain ⟨hl, hls⟩ := List.forall_mem_cons.mp h
    obtain ⟨n, b, j, hrun⟩ := run_cons_of_passes m hl
    rw [hrun]
    exact ih n hls

/-- A line that cannot be read ends a session as what it is. -/
theorem run_of_hear_error (hheard : ∀ k ∈ heard, Passes k) {ending : Ending}
    (hl : hear l = .error ending) (rest : List (List UInt8)) :
    run m (heard ++ l :: rest) = { run m heard with ending := ending } := by
  induction heard generalizing m with
  | nil => simp only [List.nil_append, run, hl]
  | cons k heard ih =>
    obtain ⟨hk, hheard⟩ := List.forall_mem_cons.mp hheard
    obtain ⟨n, b, j, hrun⟩ := run_cons_of_passes m hk
    rw [List.cons_append, hrun, hrun, ih n hheard]
    rfl

theorem run_of_stops (hheard : ∀ l ∈ heard, Passes l) (hl : Stops l)
    (rest : List (List UInt8)) :
    run m (heard ++ l :: rest) = run m (heard ++ [l]) ∧
      (run m (heard ++ [l])).ending = .terminated := by
  induction heard generalizing m with
  | nil => exact run_cons_of_stops m hl rest
  | cons k heard ih =>
    obtain ⟨hk, hheard⟩ := List.forall_mem_cons.mp hheard
    obtain ⟨n, b, j, hrun⟩ := run_cons_of_passes m hk
    obtain ⟨hsame, hend⟩ := ih n hheard
    rw [List.cons_append, List.cons_append, hrun, hrun, hsame]
    exact ⟨rfl, hend⟩

/-- A session passes all its lines, or there is a first one that it does not pass. -/
theorem forall_passes_or (ls : List (List UInt8)) :
    (∀ l ∈ ls, Passes l) ∨
      ∃ heard l rest, ls = heard ++ l :: rest ∧ (∀ k ∈ heard, Passes k) ∧
        ((¬ IsUtf8 l ∨ Aborts l) ∨ Stops l) := by
  induction ls with
  | nil => exact Or.inl (List.forall_mem_nil _)
  | cons l ls ih =>
    by_cases hl : Passes l
    · rcases ih with h | ⟨heard, k, rest, rfl, hheard, hk⟩
      · exact Or.inl (List.forall_mem_cons.mpr ⟨hl, h⟩)
      · exact Or.inr ⟨l :: heard, k, rest, rfl, List.forall_mem_cons.mpr ⟨hl, hheard⟩, hk⟩
    · refine Or.inr ⟨[], l, ls, rfl, List.forall_mem_nil _, ?_⟩
      by_contra hnot
      rw [not_or, not_or, not_not] at hnot
      exact hl ⟨hnot.1.1, hnot.2, hnot.1.2⟩

end Session

namespace Program

open Session (Aborts Passes Stops)
open Text (IsUtf8)

section Reports

variable (threshold : Threshold) {l : List UInt8} {heard : List (List UInt8)}

theorem report_of_passes (hheard : ∀ k ∈ heard, Passes k) :
    let told := Session.run .empty heard
    report threshold told =
      ⟨told.text, logLines threshold (told.journal ++ [.ended told.machine.depth]), 0⟩ := by
  intro told
  have hend : told.ending = .endOfInput := Session.ending_run_of_passes .empty hheard
  simp [report, lastLines, Session.farewell, exitCode, hend, logLines_append]

/-- What such a session would have written had a line that cannot be read stood at its end. -/
theorem report_of_hear_error (hheard : ∀ k ∈ heard, Passes k) {ending : Session.Ending}
    (hl : Session.hear l = .error ending) (rest : List (List UInt8)) :
    let told := Session.run .empty heard
    report threshold (Session.run .empty (heard ++ l :: rest)) =
      ⟨told.text,
        logLines threshold told.journal ++ if ending = .unreadable then failure else [],
        exitCode ending⟩ := by
  intro told
  have hend : told.ending = .endOfInput := Session.ending_run_of_passes .empty hheard
  rw [Session.run_of_hear_error .empty hheard hl]
  rcases Session.ending_of_hear hl with rfl | rfl <;>
    simp [report, lastLines, Session.farewell, Session.Transcript.text, Session.lastPrompt, hend,
      told, logLines, Threshold.filter]

theorem report_of_stops (hheard : ∀ k ∈ heard, Passes k) (hl : Stops l)
    (rest : List (List UInt8)) :
    let told := Session.run .empty (heard ++ [l])
    report threshold (Session.run .empty (heard ++ l :: rest)) = report threshold told ∧
    report threshold told =
      ⟨told.text, logLines threshold (told.journal ++ [.ended told.machine.depth]), 0⟩ := by
  intro told
  obtain ⟨hrun, hend⟩ := Session.run_of_stops .empty hheard hl rest
  constructor
  · rw [hrun]
  · simp [report, lastLines, Session.farewell, exitCode, told, hend, logLines_append]

/-- A session does not fail without a line that cannot be read and that it gets to. -/
theorem code_report_run_eq_zero {ls : List (List UInt8)}
    (h : ¬ ∃ heard bad rest, ls = heard ++ bad :: rest ∧ (∀ k ∈ heard, Passes k) ∧
      (¬ IsUtf8 bad ∨ Aborts bad)) :
    (report threshold (Session.run .empty ls)).code = 0 := by
  rcases Session.forall_passes_or ls with hall | ⟨heard, k, rest, hls, hheard, hk | hk⟩
  · rw [report_of_passes threshold hall]
  · exact absurd ⟨heard, k, rest, hls, hheard, hk⟩ h
  · obtain ⟨hrun, htold⟩ := report_of_stops threshold hheard hk rest
    rw [hls, hrun, htold]

end Reports

/-- Input that is not UTF-8 fails at its own line, if no line before it ends the session, and what
was written up to there is what the lines before it make a session write. So it is with a line whose
backspaces cannot be applied, where the run breaks off. Behind a line that asks for the end the rest
of the input, whatever it is, counts for nothing. All other input is read to its end. -/
theorem run_of_bytes (counts : List Nat) (setting : LogSetting) (input : List UInt8) :
    (∀ s, Text.backspace ∉ s.toList → ¬ Aborts (Text.utf8 s) ∧
      (Stops (Text.utf8 s) ↔ ∃ w ∈ wordsOf s, w ∈ terminators)) ∧
    (∀ s, (∀ c ∈ Text.clusters (Text.chomp s.toList), Text.byteSize c < 256) →
      ¬ Aborts (Text.utf8 s)) ∧
    let session := run (Request.verbosityFlags counts) setting.text
    let log := logLines (setting.threshold (UInt8.ofNat (Request.flagCount counts)))
    (∀ heard bad rest, Text.lines input = heard ++ bad :: rest → (∀ l ∈ heard, Passes l) →
      let told := Session.run .empty heard
      session heard.flatten =
        ⟨told.text, log (told.journal ++ [.ended told.machine.depth]), 0⟩ ∧
      (∀ n, .ended n ∉ told.journal) ∧
      (¬ IsUtf8 bad → session input = ⟨told.text, log told.journal ++ failure, 1⟩) ∧
      (Aborts bad → session input = ⟨told.text, log told.journal, 101⟩)) ∧
    (∀ heard last rest, Text.lines input = heard ++ last :: rest → (∀ l ∈ heard, Passes l) →
      Stops last →
      let told := Session.run .empty (heard ++ [last])
      session input = session (heard ++ [last]).flatten ∧
      session input = ⟨told.text, log (told.journal ++ [.ended told.machine.depth]), 0⟩) ∧
    ((¬ ∃ heard bad rest, Text.lines input = heard ++ bad :: rest ∧ (∀ l ∈ heard, Passes l) ∧
        (¬ IsUtf8 bad ∨ Aborts bad)) →
      (session input).code = 0) := by
  refine ⟨?_, fun s => Session.not_aborts_of_small, ?_⟩
  · exact fun s h => ⟨Session.not_aborts_of_not_mem h, Session.stops_utf8_iff_of_not_mem h⟩
  intro session log
  have hsession : ∀ bytes, session bytes =
      report (setting.threshold (UInt8.ofNat (Request.flagCount counts)))
        (Session.run .empty (Text.lines bytes)) := run_setting counts setting
  refine ⟨?_, ?_, ?_⟩
  · intro heard bad rest hinput hheard told
    have hcut : Text.lines heard.flatten = heard := Text.cutAfter_flatten_of_append hinput
    rw [hsession, hsession, hcut, hinput]
    refine ⟨report_of_passes _ hheard, Session.ended_not_mem_journal_run .empty heard, ?_, ?_⟩
    · intro hbad
      exact report_of_hear_error _ hheard (Session.hear_of_not_isUtf8 hbad) rest
    · intro hbad
      rw [report_of_hear_error _ hheard (Session.hear_of_aborts hbad) rest]
      simp [told, log, exitCode]
  · intro heard last rest hinput hheard hlast told
    have hcut : Text.lines (heard ++ [last]).flatten = heard ++ [last] := by
      apply Text.cutAfter_flatten_of_append
      rw [List.append_assoc]
      exact hinput
    rw [hsession, hsession, hcut, hinput]
    obtain ⟨hrun, htold⟩ := report_of_stops _ hheard hlast rest
    exact ⟨hrun, hrun.trans htold⟩
  · intro h
    rw [hsession]
    exact code_report_run_eq_zero _ h

/-- A letter that is taken away again can leave a word that asks for the end, so that what no text
spells is not read although no word of the line before it asks for the end. And a line of text, in
which no word does either, can break a run off. -/
theorem code_run_of_erased_letter :
    let line := "exitx\x08\n"
    let bad : List UInt8 := [0xFF, 0x0A]
    let long := String.ofList (Text.overlong ++ [Text.backspace])
    Text.lines (Text.utf8 line ++ bad) = [Text.utf8 line, bad] ∧ ¬ IsUtf8 bad ∧
    (∀ w ∈ wordsOf line, w ∉ terminators) ∧
    (run (Request.verbosityFlags []) none (Text.utf8 line ++ bad)).code ≠ 1 ∧
    (∀ w ∈ wordsOf long, w ∉ terminators) ∧
    (run (Request.verbosityFlags []) none (Text.utf8 long)).code ≠ 0 := by
  intro line bad long
  have hlines : Text.lines (Text.utf8 line ++ bad) = [Text.utf8 line, bad] := by decide +kernel
  have hphrase : Session.phrase? line = some "exit" := by decide +kernel
  have hstops : Stops (Text.utf8 line) := by
    rw [Session.stops_utf8_iff hphrase]
    decide +kernel
  have hone : Text.lines (Text.utf8 long) = [] ++ [Text.utf8 long] := by decide +kernel
  have haborts : Aborts (Text.utf8 long) := Session.aborts_utf8_iff.mpr Session.phrase?_overlong
  refine ⟨hlines, Text.decode_eq_none_iff.mp (by decide +kernel), by decide +kernel, ?_,
    by decide +kernel, ?_⟩
  · obtain ⟨hrun, htold⟩ := report_of_stops _ (List.forall_mem_nil Passes) hstops [bad]
    rw [List.nil_append] at hrun
    rw [run_verbosityFlags, hlines, hrun, htold]
    exact Nat.zero_ne_one
  · rw [run_verbosityFlags, hone, report_of_hear_error _ (List.forall_mem_nil Passes)
      (Session.hear_of_aborts haborts) []]
    exact Nat.succ_ne_zero 100

end Program

end ReversePolish
