import ReversePolish.Proofs.Agreement
import ReversePolish.Proofs.Decoding
import ReversePolish.Proofs.Prompt

/-!
# Transcripts are unambiguous

Words hold no white space, so each entry of a trace is one line, however the rejected words in it
are spelled (`Entry.inline_text`), and a prompt shows no mark but its last
(`Machine.toList_prompt`). So the passages of every session can be told apart (`legible_passages`),
and what a run writes on its standard output tells all of them.
-/

namespace ReversePolish

namespace Text

/-- A text in which only spaces are blank, so that it is one line. -/
def Inline (s : List Char) : Prop := ∀ c ∈ s, isBlank c = true → c = ' '

instance (s : List Char) : Decidable (Inline s) :=
  decidable_of_iff (s.all fun c => !isBlank c || c == ' ')
    (by simp [Inline, Decidable.imp_iff_not_or])

variable {s t : List Char}

theorem inline_append : Inline (s ++ t) ↔ Inline s ∧ Inline t := List.forall_mem_append

theorem inline_of_solid (h : Solid s) : Inline s := by
  intro c hc hblank
  rw [h c hc] at hblank
  cases hblank

theorem not_mem_of_inline (h : Inline s) : '\n' ∉ s := by
  intro hmem
  exact absurd (h _ hmem (by decide)) (by decide)

end Text

theorem inline_showFloat (v : Float) : Text.Inline (showFloat v).toList :=
  Text.inline_of_solid (isWord_showFloat v).2

namespace Entry

open Text (Inline inline_append)

theorem inline_text {m : Machine} {p : String} {e : Entry} (h : e ∈ (m.eval p).trace) :
    Inline e.text.toList := by
  cases e with
  | push v =>
    simp only [text, String.toList_append, inline_append]
    exact ⟨by decide, inline_showFloat v⟩
  | apply l op r x =>
    have hsymbol : Inline op.symbol.toList := by cases op <;> decide
    simp only [text, String.toList_append, inline_append, inline_showFloat, hsymbol]
    decide
  | error r =>
    obtain ⟨hword, -, hdefect⟩ := Machine.rejected_of_eval (Or.inl h)
    obtain ⟨s, hs, hr⟩ := List.mem_map.mp hword
    have hsolid : Inline r.word.toList := by
      rw [← hr, String.toList_ofList]
      exact Text.inline_of_solid (Text.mem_words hs).2
    simp only [text, Rejection.text, hdefect, String.toList_append, inline_append, hsolid]
    decide

theorem isEntry_text (e : Entry) : Session.isEntry e.text.toList = true := by
  cases e with
  | push v =>
    simp only [text, String.toList_append]
    rfl
  | apply l op r x =>
    simp only [text, String.toList_append, List.append_assoc]
    rfl
  | error r =>
    simp only [text, String.toList_append]
    rfl

end Entry

namespace Session

theorem isEntry_showFloat (v : Float) : isEntry (showFloat v).toList = false := by
  have hwritten : ∀ c ∈ (showFloat v).toList, Layout.isWritten c = true := by
    rw [showFloat_toList]
    exact fun c => Layout.isWritten_of_mem_chars
  generalize (showFloat v).toList = s at hwritten ⊢
  unfold isEntry
  split
  · exact absurd (hwritten 'P' List.mem_cons_self) (by decide)
  · exact absurd (hwritten 'E' List.mem_cons_self) (by decide)
  · rfl

theorem legible_prompt (m : Machine) :
    ∃ s : List Char, m.prompt.toList = s ++ ['>'] ∧ '>' ∉ s ∧ '\n' ∉ s := by
  obtain ⟨s, hs, hchars⟩ := m.toList_prompt
  refine ⟨s, hs, ?_, ?_⟩
  · intro h
    exact absurd (hchars _ h) (by decide)
  · intro h
    exact absurd (hchars _ h) (by decide)

theorem legible_lastPrompt (m : Machine) : Legible [⟨m.prompt, [], none⟩] :=
  .last ⟨legible_prompt m, nofun, nofun⟩ rfl

theorem legible_block (m : Machine) (p : String) : (block m (m.eval p)).passage.Legible where
  prompt := legible_prompt m
  entries := by
    intro t ht
    obtain ⟨e, he, rfl⟩ := List.mem_map.mp ht
    exact ⟨Text.not_mem_of_inline (Entry.inline_text he), e.isEntry_text⟩
  answer := by
    intro t ht
    obtain ⟨v, _, rfl⟩ := Option.map_eq_some_iff.mp ht
    have hne : showFloat v ≠ "" := fun h => (isWord_showFloat v).1 (congrArg String.toList h)
    exact ⟨Text.not_mem_of_inline (inline_showFloat v), hne, isEntry_showFloat v⟩

theorem passages_after (t : Transcript) (b : Block) (journal : List Message) :
    (t.after b journal).passages = b.passage :: t.passages := rfl

theorem legible_passages (m : Machine) (ls : List (List UInt8)) :
    Legible (run m ls).passages := by
  induction ls generalizing m with
  | nil => exact legible_lastPrompt m
  | cons l ls ih =>
    rw [run]
    cases hl : hear l with
    | error ending =>
      rcases ending_of_hear hl with rfl | rfl
      · exact legible_lastPrompt m
      · exact legible_lastPrompt m
    | ok p =>
      have hblock := legible_block m p
      cases ho : (m.eval p).outcome with
      | terminate =>
        simp only [ho]
        exact .last hblock (by simp [Block.passage, block, ho])
      | proceed v =>
        simp only [ho, passages_after]
        exact .cons hblock (by simp [Block.passage, block, ho]) (ih _)

theorem text_passage (b : Block) : b.passage.text = b.text := by
  cases h : b.answer? <;>
    simp [Passage.text, Block.passage, Block.text, Block.reply, h, String.append_assoc,
      Function.comp_def]

theorem join_passages (t : Transcript) : String.join (t.passages.map Passage.text) = t.text := by
  have hblocks : t.blocks.map (Passage.text ∘ Block.passage) = t.blocks.map Block.text :=
    List.map_congr_left fun b _ => text_passage b
  rw [Transcript.passages, Transcript.text, List.map_append, String.join_append, List.map_map,
    hblocks]
  cases t.ending <;> simp [lastPrompt, Passage.text]

theorem decode_run (m : Machine) (ls : List (List UInt8)) :
    decode (run m ls).text = (run m ls).passages := by
  rw [← join_passages, decode_text (legible_passages m ls)]

theorem hear_bye : hear (Text.utf8 "bye\n") = .ok "bye" := by
  have hphrase : phrase? "bye\n" = some "bye" := by decide +kernel
  refine hear_of_phrase? ?_ hphrase
  rw [Text.utf8_eq_flatMap, Text.decode_flatMap_utf8EncodeChar, String.ofList_toList]

theorem eval_bye (m : Machine) :
    m.eval "bye" = ⟨m, [], .terminate, [.token "bye" .terminate, .terminating "bye"]⟩ :=
  run_cons_terminator (by decide) []

theorem text_run_append_bye (m : Machine) (ls : List (List UInt8)) :
    (run m (ls ++ [Text.utf8 "bye\n"])).text = (run m ls).text := by
  induction ls generalizing m with
  | nil =>
    have hrun : run m [Text.utf8 "bye\n"] =
        ⟨[⟨m.prompt, [], none⟩], .terminated, m,
          [.token "bye" .terminate, .terminating "bye"]⟩ := by
      rw [run, hear_bye]
      simp only [eval_bye]
      rfl
    rw [List.nil_append, hrun, run]
    simp [Transcript.text, Block.text, Block.reply, lastPrompt]
  | cons l ls ih =>
    rw [List.cons_append, run, run]
    cases hl : hear l with
    | error ending => rfl
    | ok p =>
      cases ho : (m.eval p).outcome with
      | terminate => simp only [ho]
      | proceed v => simp only [ho, text_after, ih]

end Session

namespace Program

/-- What a run writes on its standard output can be taken apart into its passages, and so tells the
prompts, and behind each the texts of the trace and of the answer. The texts of a trace hold no line
break. Only why a session ended it does not tell. -/
theorem stdout_decodable (counts : List Nat) (setting : Option String) (input : List UInt8) :
    Session.decode (run (Request.verbosityFlags counts) setting input).stdout =
      (Session.run .empty (Text.lines input)).passages ∧
    (∀ (counts' : List Nat) (setting' : Option String) (input' : List UInt8),
      (run (Request.verbosityFlags counts) setting input).stdout =
          (run (Request.verbosityFlags counts') setting' input').stdout ↔
        (Session.run .empty (Text.lines input)).passages =
          (Session.run .empty (Text.lines input')).passages) ∧
    (∀ (m : Machine) (p : String), ∀ e ∈ (m.eval p).trace, ∀ c ∈ e.text.toList,
      Text.isBlank c = true → c = ' ') ∧
    ∀ (m : Machine) (ls : List (List UInt8)),
      (Session.run m (ls ++ [Text.utf8 "bye\n"])).text = (Session.run m ls).text := by
  have hstdout : ∀ (counts : List Nat) (setting : Option String) (input : List UInt8),
      (run (Request.verbosityFlags counts) setting input).stdout =
        (Session.run .empty (Text.lines input)).text := by
    intro counts setting input
    rw [run_verbosityFlags]
    rfl
  refine ⟨?_, ?_, fun m p e he => Entry.inline_text he, Session.text_run_append_bye⟩
  · rw [hstdout, Session.decode_run]
  · intro counts' setting' input'
    rw [hstdout, hstdout]
    constructor
    · intro h
      rw [← Session.decode_run, h, Session.decode_run]
    · intro h
      rw [← Session.join_passages, h, Session.join_passages]

end Program

end ReversePolish
