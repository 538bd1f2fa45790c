import ReversePolish.Proofs.Account
import ReversePolish.Proofs.Prompt

/-!
# The journal and the trace

An evaluation keeps two records, a trace of what it did and a journal for an observer. Every word
that is read has one message about its meaning, and what it did another, so the journal without the
rest of its messages is the trace (`filterMap_told?_run`), and each message stands where the words
in front of it left the machine (`exists_step_of_journal`). The journal also notes the clearings,
which no trace does, so its texts alone tell how the operands changed (`foldl_recount_texts`).
-/

namespace ReversePolish

/-- The words up to the first that asks for the end, with it. -/
def heeded (ws : List String) : List String := ws.take (ws.findIdx (· ∈ terminators) + 1)

variable {w : String} {ws : List String}

theorem heeded_cons_of_mem (h : w ∈ terminators) (ws : List String) : heeded (w :: ws) = [w] := by
  simp [heeded, List.findIdx_cons, h]

theorem heeded_cons_of_not_mem (h : w ∉ terminators) (ws : List String) :
    heeded (w :: ws) = w :: heeded ws := by
  simp [heeded, List.findIdx_cons, h]

namespace Message

def ofWord (w : String) : Message :=
  match Token.classify w with
  | .ok t => .token w t
  | .error defect => .rejected ⟨w, defect⟩

theorem ofWord_of_ok {t : Token} (h : Token.classify w = .ok t) : ofWord w = .token w t := by
  rw [ofWord, h]

theorem ofWord_of_error {defect : Numeral.Defect} (h : Token.classify w = .error defect) :
    ofWord w = .rejected ⟨w, defect⟩ := by
  rw [ofWord, h]

def told? : Message → Option Entry
  | pushed v _ => some (.push v)
  | applied l op r x => some (.apply l op r x)
  | rejected r => some (.error r)
  | token .. | terminating _ | clearing _ | ended _ => none

/-- The operands after a message, if these were the operands before it. -/
def retell (s : List Float) : Message → List Float
  | pushed v _ => s ++ [v]
  | applied _ _ _ x => s.dropLast.dropLast ++ [x]
  | clearing _ => []
  | token .. | rejected _ | terminating _ | ended _ => s

/-- Messages chosen by the entries that they tell of are in line with these entries. -/
theorem map_told?_filter {chosen : Message → Bool} {kept : Entry → Bool}
    (h : ∀ msg, chosen msg = msg.told?.any kept) (log : List Message) :
    (log.filter chosen).map told? = ((log.filterMap told?).filter kept).map some := by
  induction log with
  | nil => rfl
  | cons msg log ih =>
    have hmsg := h msg
    cases he : msg.told? with
    | none =>
      rw [he] at hmsg
      rw [List.filter_cons_of_neg (by simp [hmsg]), List.filterMap_cons_none he, ih]
    | some e =>
      rw [he] at hmsg
      rw [List.filterMap_cons_some he]
      by_cases hk : kept e
      · rw [List.filter_cons_of_pos (by simp [hmsg, hk]), List.filter_cons_of_pos hk, List.map_cons,
          List.map_cons, he, ih]
      · rw [List.filter_cons_of_neg (by simp [hmsg, hk]), List.filter_cons_of_neg hk, ih]

def isRejection : Message → Bool
  | rejected _ => true
  | token .. | terminating _ | clearing _ | pushed .. | applied .. | ended _ => false

end Message

namespace Machine

open Message

section Steps

variable {m : Machine} {st : Step}

theorem Does.filter_debug (h : m.Does w st) :
    st.journal.filter (·.level = .debug) = [ofWord w] := by
  cases h with
  | reject h => rw [ofWord_of_error h]; rfl
  | clear h => rw [ofWord_of_ok h]; rfl
  | apply h => rw [ofWord_of_ok h]; rfl
  | push h => rw [ofWord_of_ok h]; rfl

theorem Does.filterMap_told? (h : m.Does w st) : st.journal.filterMap told? = st.trace := by
  cases h <;> rfl

theorem Does.foldl_retell (h : m.Does w st) :
    st.journal.foldl retell m.operands = st.machine.operands := by
  cases h with
  | reject => rfl
  | clear => rfl
  | apply => simp [retell, operands_apply]
  | push => simp [retell]

theorem Does.not_terminating (h : m.Does w st) (v : String) : .terminating v ∉ st.journal := by
  cases h <;> simp

theorem Does.of_pushed {v : Float} {n : Nat} (h : m.Does w st) (hj : .pushed v n ∈ st.journal) :
    (∃ t, st.journal = [.token w t, .pushed v n]) ∧ n = st.machine.operands.length := by
  cases h with
  | reject => simp at hj
  | clear => simp at hj
  | apply => simp at hj
  | push =>
    obtain ⟨rfl, rfl⟩ : v = _ ∧ n = m.depth + 1 := by simpa using hj
    refine ⟨⟨_, rfl⟩, ?_⟩
    rw [operands_push, List.length_append, length_operands]
    rfl

theorem Does.of_clearing {n : Nat} (h : m.Does w st) (hj : .clearing n ∈ st.journal) :
    w = "clear" ∧ st.journal = [.token "clear" .clear, .clearing n] ∧ n = m.operands.length := by
  cases h with
  | reject => simp at hj
  | clear h =>
    obtain rfl : n = m.depth := by simpa using hj
    obtain rfl := classify_eq_clear_iff.mp h
    exact ⟨rfl, rfl, m.length_operands.symm⟩
  | apply => simp at hj
  | push => simp at hj

end Steps

variable (m : Machine)

theorem filter_debug_run (ws : List String) :
    (m.run ws).journal.filter (·.level = .debug) = (heeded ws).map ofWord := by
  induction ws generalizing m with
  | nil => rfl
  | cons w ws ih =>
    by_cases hw : w ∈ terminators
    · rw [run_cons_terminator hw, heeded_cons_of_mem hw, List.map_singleton,
        ofWord_of_ok (classify_eq_terminate_iff.mpr hw)]
      rfl
    · rw [run_cons hw, heeded_cons_of_not_mem hw, List.map_cons, ← ih (m.step w).machine]
      simp only [Evaluation.after, List.filter_append, (does_step hw).filter_debug]
      rfl

theorem filterMap_told?_run (ws : List String) :
    (m.run ws).journal.filterMap told? = (m.run ws).trace := by
  induction ws generalizing m with
  | nil => rfl
  | cons w ws ih =>
    by_cases hw : w ∈ terminators
    · rw [run_cons_terminator hw]
      rfl
    · rw [run_cons hw]
      simp only [Evaluation.after, List.filterMap_append, (does_step hw).filterMap_told?, ih]

theorem foldl_retell_run (ws : List String) :
    (m.run ws).journal.foldl retell m.operands = (m.run ws).machine.operands := by
  induction ws generalizing m with
  | nil => rfl
  | cons w ws ih =>
    by_cases hw : w ∈ terminators
    · rw [run_cons_terminator hw]
      rfl
    · rw [run_cons hw]
      simp only [Evaluation.after, List.foldl_append, (does_step hw).foldl_retell, ih]

/-- A run that terminated did all that the words in front of the last one ask for. -/
theorem journal_run_of_terminate {ws : List String} (h : (m.run ws).outcome = .terminate) :
    ∃ us, ∃ w ∈ terminators, (∀ u ∈ us, u ∉ terminators) ∧
      (m.run ws).journal = (m.run us).journal ++ [.token w .terminate, .terminating w] := by
  induction ws generalizing m with
  | nil => cases h
  | cons w ws ih =>
    by_cases hw : w ∈ terminators
    · refine ⟨[], w, hw, List.forall_mem_nil _, ?_⟩
      rw [run_cons_terminator hw]
      rfl
    · rw [run_cons hw] at h
      obtain ⟨us, v, hv, hus, hj⟩ := ih (m.step w).machine h
      refine ⟨w :: us, v, hv, List.forall_mem_cons.mpr ⟨hw, hus⟩, ?_⟩
      rw [run_cons hw, run_cons hw]
      simp only [Evaluation.after, hj, List.append_assoc]

theorem exists_terminating_iff {ws : List String} :
    (∃ w, .terminating w ∈ (m.run ws).journal) ↔ (m.run ws).outcome = .terminate := by
  constructor
  · rintro ⟨v, hv⟩
    rw [outcome_run_eq_terminate_iff]
    rcases m.exists_step_of_mem_journal hv with ⟨n, w, -, hw, hstep⟩ | ⟨w, hws, hw, -⟩
    · exact absurd hstep ((does_step hw).not_terminating v)
    · exact ⟨w, hws, hw⟩
  · intro h
    obtain ⟨us, w, -, -, hj⟩ := m.journal_run_of_terminate h
    exact ⟨w, by simp [hj]⟩

theorem not_terminating_run {ws : List String} (h : ∀ w ∈ ws, w ∉ terminators) (v : String) :
    .terminating v ∉ (m.run ws).journal := by
  intro hmem
  have hend : (m.run ws).outcome = .terminate := m.exists_terminating_iff.mp ⟨v, hmem⟩
  obtain ⟨w, hws, hw⟩ := m.outcome_run_eq_terminate_iff.mp hend
  exact h w hws hw

theorem eq_nil_of_terminating {ws : List String} {w : String} {j k : List Message}
    (h : (m.run ws).journal = j ++ .terminating w :: k) : k = [] := by
  have hend : (m.run ws).outcome = .terminate := m.exists_terminating_iff.mp ⟨w, by simp [h]⟩
  obtain ⟨us, v, -, hus, hj⟩ := m.journal_run_of_terminate hend
  rcases List.eq_nil_or_concat k with hk | ⟨k', msg, hk⟩
  · exact hk
  -- a message of an end in front of the last one would be among those of the words in front
  · rw [hj, hk, List.concat_eq_append, ← List.cons_append, ← List.append_assoc,
      ← List.singleton_append, ← List.append_assoc] at h
    have hinit := (List.append_inj' h rfl).1
    have hmem : Message.terminating w ∈ (m.run us).journal ++ [.token v .terminate] := by
      simp [hinit]
    rcases List.mem_append.mp hmem with hin | hin
    · exact absurd hin (m.not_terminating_run hus w)
    · simp at hin

/-- A message of no end stands in a step, behind the messages of the words in front of it. -/
theorem exists_step_of_journal {ws : List String} {j k : List Message} {msg : Message}
    (hmsg : ∀ w, msg ≠ .token w .terminate ∧ msg ≠ .terminating w)
    (h : (m.run ws).journal = j ++ msg :: k) :
    ∃ us w vs j' k', ws = us ++ w :: vs ∧ (∀ u ∈ us, u ∉ terminators) ∧ w ∉ terminators ∧
      j = (m.run us).journal ++ j' ∧ ((m.run us).machine.step w).journal = j' ++ msg :: k' := by
  induction ws generalizing m j with
  | nil => simp at h
  | cons w ws ih =>
    by_cases hw : w ∈ terminators
    · have hmem : msg ∈ (m.run (w :: ws)).journal := h ▸ List.mem_append_cons_self
      rw [run_cons_terminator hw] at hmem
      obtain ⟨htoken, hterminating⟩ := hmsg w
      simp [htoken, hterminating] at hmem
    · rw [run_cons hw] at h
      have hrest : ∀ j', j = (m.step w).journal ++ j' →
          ((m.step w).machine.run ws).journal = j' ++ msg :: k →
          ∃ us v vs j' k', w :: ws = us ++ v :: vs ∧ (∀ u ∈ us, u ∉ terminators) ∧
            v ∉ terminators ∧ j = (m.run us).journal ++ j' ∧
            ((m.run us).machine.step v).journal = j' ++ msg :: k' := by
        intro j' hj' hj
        obtain ⟨us, v, vs, i, k', rfl, hus, hv, rfl, hstep⟩ := ih (m.step w).machine hj
        refine ⟨w :: us, v, vs, i, k', rfl, List.forall_mem_cons.mpr ⟨hw, hus⟩, hv, ?_, ?_⟩
        · rw [run_cons hw, hj']
          simp only [Evaluation.after, List.append_assoc]
        · rw [run_cons hw]
          exact hstep
      rcases List.append_eq_append_iff.mp h with ⟨j', hj, hk⟩ | ⟨c, hc, hk⟩
      · exact hrest j' hj hk
      · cases c with
        | nil => exact hrest [] (by simpa using hc.symm) hk.symm
        | cons a c =>
          obtain ⟨rfl, -⟩ := List.cons.inj hk
          exact ⟨[], w, ws, j, c, rfl, List.forall_mem_nil _, hw, rfl, hc⟩

theorem eq_of_pair_eq {α : Type} {a b c : α} {l r : List α} (h : [a, b] = l ++ c :: r)
    (hne : a ≠ c) : l = [a] ∧ r = [] := by
  cases l with
  | nil => exact absurd (List.cons.inj h).1 hne
  | cons d l =>
    obtain ⟨hd, htail⟩ := List.cons.inj h
    cases l with
    | nil =>
      obtain ⟨-, hr⟩ := List.cons.inj (show [b] = c :: r from htail)
      exact ⟨congrArg ([·]) hd.symm, hr.symm⟩
    | cons e l => simp at htail

/-- Up to the message of a push the journal is that of the words up to the one that pushed, and the
depth in the message is the number of operands that they left. -/
theorem depth_of_pushed {ws : List String} {v : Float} {n : Nat} {j k : List Message}
    (h : (m.run ws).journal = j ++ .pushed v n :: k) :
    ∃ us vs, ws = us ++ vs ∧ (m.run us).journal = j ++ [.pushed v n] ∧
      n = (m.run us).machine.operands.length := by
  obtain ⟨us, w, vs, j', k', rfl, hus, hw, rfl, hstep⟩ := m.exists_step_of_journal (by simp) h
  obtain ⟨⟨t, hj⟩, hn⟩ := (does_step hw).of_pushed (hstep ▸ List.mem_append_cons_self)
  obtain ⟨rfl, rfl⟩ := eq_of_pair_eq (hj.symm.trans hstep) nofun
  refine ⟨us ++ [w], vs, by simp, ?_, ?_⟩
  · rw [run_append_of_forall m hus, run_singleton hw]
    simp [Evaluation.after, hj]
  · rw [run_append_of_forall m hus, run_singleton hw]
    exact hn

/-- The count in the message of a clearing is the number of operands that the words in front of it
left. -/
theorem count_of_clearing {ws : List String} {n : Nat} {j k : List Message}
    (h : (m.run ws).journal = j ++ .clearing n :: k) :
    ∃ us vs, ws = us ++ "clear" :: vs ∧ j = (m.run us).journal ++ [.token "clear" .clear] ∧
      n = (m.run us).machine.operands.length := by
  obtain ⟨us, w, vs, j', k', rfl, -, hw, rfl, hstep⟩ := m.exists_step_of_journal (by simp) h
  obtain ⟨rfl, hj, hn⟩ := (does_step hw).of_clearing (hstep ▸ List.mem_append_cons_self)
  obtain ⟨rfl, -⟩ := eq_of_pair_eq (hj.symm.trans hstep) nofun
  exact ⟨us, vs, rfl, rfl, hn⟩

end Machine

section Texts

def spelled (w : String) : Float :=
  match Token.classify w with
  | .ok (.number v) => v
  | _ => Binary64.nan

/-- The operands after a message of this text, if these were the operands before it. -/
def recount (s : List Float) (line : String) : List Float :=
  let ws := wordsOf line
  if ws.headD "" = "push" then s ++ [spelled (ws.getD 1 "")]
  else if ws.headD "" = "clearing" then []
  else
    match Token.classify (ws.headD "") with
    | .ok (.number _) => s.dropLast.dropLast ++ [spelled (ws.getD 4 "")]
    | _ => s

theorem spelled_showFloat (v : Float) : spelled (showFloat v) = v := by
  rw [spelled, showFloat, Layout.plain.classify_text v]

theorem wordsOf_cons {w : String} (hw : Text.IsWord w.toList) (s : String) :
    wordsOf (w ++ " " ++ s) = w :: wordsOf s := by
  rw [← List.singleton_append, ← wordsOf_of_word hw.1 hw.2]
  exact wordsOf_append_blank w s (c := ' ') (by decide)

theorem recount_of_word {w line rest : String} (hline : line = w ++ " " ++ rest)
    (hw : Text.IsWord w.toList) {defect : Numeral.Defect} (h : Token.classify w = .error defect)
    (hpush : w ≠ "push") (hclear : w ≠ "clearing") (s : List Float) : recount s line = s := by
  rw [hline, recount, wordsOf_cons hw]
  simp [hpush, hclear, h]

theorem ne_of_classify {w v : String} {t : Token} {defect : Numeral.Defect}
    (hw : Token.classify w = .ok t) (hv : Token.classify v = .error defect) : w ≠ v := by
  rintro rfl
  rw [hw] at hv
  cases hv

theorem wordsOf_applied (l : Float) (op : Operator) (r x : Float) :
    wordsOf (Message.applied l op r x).text =
      [showFloat l, op.symbol, showFloat r, "=", showFloat x] := by
  have htext : (Message.applied l op r x).text =
      showFloat l ++ " " ++
        (op.symbol ++ " " ++ (showFloat r ++ " " ++ ("=" ++ " " ++ showFloat x))) := by
    change showFloat l ++ " " ++ op.symbol ++ " " ++ showFloat r ++ " = " ++ showFloat x = _
    simp [← String.toList_inj]
  rw [htext, wordsOf_cons (isWord_showFloat l), wordsOf_cons (by cases op <;> decide),
    wordsOf_cons (isWord_showFloat r), wordsOf_cons (by decide), wordsOf_showFloat]

theorem wordsOf_pushed (v : Float) (n : Nat) :
    ∃ ws, wordsOf (Message.pushed v n).text = "push" :: showFloat v :: ws := by
  have htext : (Message.pushed v n).text =
      "push" ++ " " ++ (showFloat v ++ " " ++ ("(depth " ++ Message.count n ++ ")")) := by
    change "push " ++ showFloat v ++ " (depth " ++ Message.count n ++ ")" = _
    simp [← String.toList_inj]
  rw [htext, wordsOf_cons (by decide), wordsOf_cons (isWord_showFloat v)]
  exact ⟨_, rfl⟩

/-- The text of a message tells the operands after it as the message does. -/
theorem recount_text (s : List Float) (msg : Message) : recount s msg.text = msg.retell s := by
  cases msg with
  | token w t =>
    have htext : (Message.token w t).text =
        "token" ++ " " ++ ("'" ++ w ++ "' => " ++ t.description) := by
      change "token '" ++ w ++ "' => " ++ t.description = _
      simp [← String.toList_inj]
    exact recount_of_word htext (by decide) rfl (by decide) (by decide) s
  | rejected r =>
    have htext : (Message.rejected r).text =
        "rejected" ++ " " ++ ("token '" ++ r.word ++ "': " ++ r.text) := by
      change "rejected token '" ++ r.word ++ "': " ++ r.text = _
      simp [← String.toList_inj]
    exact recount_of_word htext (by decide) rfl (by decide) (by decide) s
  | terminating w =>
    have htext : (Message.terminating w).text =
        "termination" ++ " " ++ ("requested by '" ++ w ++ "'") := by
      change "termination requested by '" ++ w ++ "'" = _
      simp [← String.toList_inj]
    exact recount_of_word htext (by decide) rfl (by decide) (by decide) s
  | clearing n =>
    have htext : (Message.clearing n).text =
        "clearing" ++ " " ++ (Message.count n ++ " operand(s)") := by
      change "clearing " ++ Message.count n ++ " operand(s)" = _
      simp [← String.toList_inj]
    rw [recount, htext, wordsOf_cons (by decide)]
    simp [Message.retell]
  | pushed v n =>
    obtain ⟨ws, hws⟩ := wordsOf_pushed v n
    rw [recount, hws]
    simp [Message.retell, spelled_showFloat]
  | applied l op r x =>
    have hl : Token.classify (showFloat l) = .ok (.number l) := Layout.plain.classify_text l
    have hpush : showFloat l ≠ "push" := ne_of_classify hl rfl
    have hclear : showFloat l ≠ "clearing" := ne_of_classify hl rfl
    rw [recount, wordsOf_applied]
    simp [hpush, hclear, hl, spelled_showFloat, Message.retell]
  | ended n =>
    have htext : (Message.ended n).text =
        "session" ++ " " ++ ("ended with " ++ Message.count n ++ " operand(s)") := by
      change "session ended with " ++ Message.count n ++ " operand(s)" = _
      simp [← String.toList_inj]
    exact recount_of_word htext (by decide) rfl (by decide) (by decide) s

theorem foldl_recount_texts (s : List Float) (log : List Message) :
    (log.map Message.text).foldl recount s = log.foldl Message.retell s := by
  rw [List.foldl_map]
  simp only [recount_text]

end Texts

theorem Message.count_eq_toString (n : Nat) : Message.count n = toString n := rfl

namespace Machine

/-- The journal has one message about the meaning of each word that was read, and with the others
it tells the trace and more: which operands there were at each push and before each clearing, how
the run ended, and so, by its texts alone, the operands after it. -/
theorem eval_chronicle (m : Machine) (p : String) :
    let ev := m.eval p
    let log := Threshold.filter (some .trace) ev.journal
    log.filter (·.level = .debug) = (heeded (wordsOf p)).map Message.ofWord ∧
    log.filterMap Message.told? = ev.trace ∧
    (log.filter (·.level = .trace)).map Message.told? =
      (ev.trace.filter (·.value?.isSome)).map some ∧
    (log.filter Message.isRejection).map Message.told? =
      (ev.trace.filter (·.value?.isNone)).map some ∧
    (∀ (j k : List Message) (v : Float) (n : Nat), log = j ++ .pushed v n :: k →
      ∃ us vs, wordsOf p = us ++ vs ∧ (m.run us).journal = j ++ [.pushed v n] ∧
        n = (m.run us).machine.operands.length ∧
        (Message.pushed v n).text = "push " ++ showFloat v ++ " (depth " ++
          toString (m.run us).machine.operands.length ++ ")") ∧
    (∀ (j k : List Message) (n : Nat), log = j ++ .clearing n :: k →
      ∃ us vs, wordsOf p = us ++ "clear" :: vs ∧
        j = (m.run us).journal ++ [.token "clear" .clear] ∧
        n = (m.run us).machine.operands.length ∧
        (Message.clearing n).text =
          "clearing " ++ toString (m.run us).machine.operands.length ++ " operand(s)") ∧
    (∀ l op r x, .applied l op r x ∈ log → (Message.applied l op r x).text =
      showFloat l ++ " " ++ op.symbol ++ " " ++ showFloat r ++ " = " ++ showFloat x) ∧
    (∀ r, .rejected r ∈ log →
      (Message.rejected r).text = "rejected token '" ++ r.word ++ "': " ++ r.text) ∧
    (∀ (j k : List Message) (w : String), log = j ++ .terminating w :: k →
      k = [] ∧ (Message.terminating w).text = "termination requested by '" ++ w ++ "'") ∧
    ((∃ w, .terminating w ∈ log) ↔ ev.outcome = .terminate) ∧
    (log.map Message.text).foldl recount m.operands = ev.machine.operands := by
  intro ev log
  have hlog : log = (m.run (wordsOf p)).journal := Threshold.filter_trace _
  have hentries : log.filterMap Message.told? = ev.trace := by
    rw [hlog]
    exact m.filterMap_told?_run (wordsOf p)
  refine ⟨?_, hentries, ?_, ?_, ?_, ?_, fun _ _ _ _ _ => rfl, fun _ _ => rfl, ?_, ?_, ?_⟩
  · rw [hlog]
    exact m.filter_debug_run (wordsOf p)
  · rw [← hentries]
    apply Message.map_told?_filter
    intro msg
    cases msg <;> rfl
  · rw [← hentries]
    apply Message.map_told?_filter
    intro msg
    cases msg <;> rfl
  · intro j k v n h
    obtain ⟨us, vs, hsplit, hj, hn⟩ := m.depth_of_pushed (hlog.symm.trans h)
    refine ⟨us, vs, hsplit, hj, hn, ?_⟩
    rw [← hn, ← Message.count_eq_toString]
    rfl
  · intro j k n h
    obtain ⟨us, vs, hsplit, hj, hn⟩ := m.count_of_clearing (hlog.symm.trans h)
    refine ⟨us, vs, hsplit, hj, hn, ?_⟩
    rw [← hn, ← Message.count_eq_toString]
    rfl
  · intro j k w h
    exact ⟨m.eq_nil_of_terminating (hlog.symm.trans h), rfl⟩
  · rw [hlog]
    exact m.exists_terminating_iff
  · rw [foldl_recount_texts, hlog]
    exact m.foldl_retell_run (wordsOf p)

/-- The texts tell of a clearing that no trace shows, and lead to the operands. -/
theorem eval_chronicle_of_clearing :
    let texts := ["token 'e' => Constant \x7b name: E, negate: false \x7d",
      "push 2.718281828459045 (depth 2)", "token 'clear' => Clear", "clearing 2 operand(s)",
      "rejected token 'x': 'x' is not a number (invalid float literal)",
      "token '7' => Number(7.0)", "push 7 (depth 1)", "token 'bye' => Terminate",
      "termination requested by 'bye'"]
    (eval ⟨[Binary64.pi]⟩ "e clear x 7 bye +").journal.map Message.text = texts ∧
    texts.foldl recount [Binary64.pi] = [Numeral.value ⟨false, .decimal ⟨7, 0⟩⟩] := by
  intro texts
  have htexts :
      (eval ⟨[Binary64.pi]⟩ "e clear x 7 bye +").journal.map Message.text = texts := by
    decide +kernel
  have hlog := (eval_chronicle ⟨[Binary64.pi]⟩ "e clear x 7 bye +").2.2.2.2.2.2.2.2.2.2
  rw [Threshold.filter_trace, htexts] at hlog
  exact ⟨htexts, hlog⟩

end Machine

end ReversePolish
