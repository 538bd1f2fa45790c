import ReversePolish.Proofs.Concatenation
import ReversePolish.Proofs.Postfix
import ReversePolish.Proofs.Written

/-!
# Prompts

A prompt lists the operands, each as a word that means it, so it can be evaluated: with a space in
the place of each bar and without the mark at its end it is a phrase that puts the operands back on
an empty machine. So a prompt tells the operands and nothing else.
-/

namespace ReversePolish

namespace Expression

def ofFloat (v : Float) : Expression :=
  .literal ⟨showFloat v, .number v, v, Layout.plain.classify_text v, rfl⟩

end Expression

theorem showFloat_toList (v : Float) : (showFloat v).toList = Layout.plain.chars v :=
  String.toList_ofList

theorem bar_not_mem_showFloat (v : Float) : '|' ∉ (showFloat v).toList := by
  rw [showFloat_toList]
  intro h
  exact absurd (Layout.isWritten_of_mem_chars h) (by decide)

theorem Layout.isWord_text (layout : Layout) (v : Float) : Text.IsWord (layout.text v).toList :=
  Token.isWord_of_classify (layout.classify_text v)

theorem isWord_showFloat (v : Float) : Text.IsWord (showFloat v).toList :=
  Layout.plain.isWord_text v

theorem wordsOf_showFloat (v : Float) : wordsOf (showFloat v) = [showFloat v] :=
  wordsOf_of_word (isWord_showFloat v).1 (isWord_showFloat v).2

theorem mem_intercalate {sep : String} {ts : List String} {c : Char}
    (h : c ∈ (sep.intercalate ts).toList) : c ∈ sep.toList ∨ ∃ t ∈ ts, c ∈ t.toList := by
  induction ts with
  | nil => simp at h
  | cons t ts ih =>
    cases ts with
    | nil => exact Or.inr ⟨t, List.mem_cons_self, by simpa using h⟩
    | cons u ts =>
      simp only [String.intercalate_cons_cons, String.toList_append, List.mem_append] at h
      rcases h with (h | h) | h
      · exact Or.inr ⟨t, List.mem_cons_self, h⟩
      · exact Or.inl h
      · obtain h | ⟨v, hv, h⟩ := ih h
        · exact Or.inl h
        · exact Or.inr ⟨v, List.mem_cons_of_mem t hv, h⟩

namespace Machine

theorem toList_prompt (m : Machine) :
    ∃ s : List Char, m.prompt.toList = s ++ ['>'] ∧
      ∀ c ∈ s, c = '|' ∨ Layout.isWritten c = true := by
  refine ⟨_, String.toList_append, ?_⟩
  intro c hc
  rcases mem_intercalate hc with h | ⟨t, ht, h⟩
  · exact Or.inl (List.mem_singleton.mp h)
  · obtain ⟨v, _, rfl⟩ := List.mem_map.mp ht
    rw [showFloat_toList] at h
    exact Or.inr (Layout.isWritten_of_mem_chars h)

/-- A prompt as a phrase: without the mark at its end, and with spaces for bars. -/
def unprompt (s : String) : String :=
  String.ofList (s.toList.dropLast.map fun c => if c = '|' then ' ' else c)

theorem unprompt_intercalate {ts : List String} (h : ∀ t ∈ ts, '|' ∉ t.toList) :
    unprompt ("|".intercalate ts ++ ">") = (String.singleton ' ').intercalate ts := by
  have hsame : ∀ t ∈ ts, (t.toList.map fun c => if c = '|' then ' ' else c) = t.toList := by
    intro t ht
    refine (List.map_congr_left ?_).trans (List.map_id _)
    intro c hc
    refine if_neg ?_
    rintro rfl
    exact h t ht hc
  have hdrop : ("|".intercalate ts ++ ">").toList.dropLast = ("|".intercalate ts).toList := by
    simp
  rw [unprompt, hdrop, ← String.toList_inj, String.toList_ofList]
  clear hdrop h
  induction ts with
  | nil => rfl
  | cons t ts ih =>
    obtain ⟨ht, hts⟩ := List.forall_mem_cons.mp hsame
    cases ts with
    | nil => simpa using ht
    | cons u ts =>
      simp only [String.intercalate_cons_cons, String.toList_append, List.map_append, ht, ih hts]
      rfl

variable (m : Machine)

theorem wordsOf_unprompt_prompt : wordsOf (unprompt m.prompt) = m.operands.map showFloat := by
  have hbar : ∀ t ∈ m.operands.map showFloat, '|' ∉ t.toList := by
    intro t ht
    obtain ⟨v, _, rfl⟩ := List.mem_map.mp ht
    exact bar_not_mem_showFloat v
  rw [prompt, unprompt_intercalate hbar, wordsOf_intercalate_blank (by decide), List.flatMap_map]
  simp only [wordsOf_showFloat]
  exact List.map_eq_flatMap.symm

theorem eval_unprompt_prompt :
    (empty.eval (unprompt m.prompt)).machine.operands = m.operands ∧
      (empty.eval (unprompt m.prompt)).trace = m.operands.map Entry.push := by
  have hwords : wordsOf (unprompt m.prompt) =
      (m.operands.map Expression.ofFloat).flatMap Expression.postorder := by
    rw [wordsOf_unprompt_prompt, List.flatMap_map]
    exact List.map_eq_flatMap
  obtain ⟨hoperands, htrace⟩ := run_flatMap_postorder empty (m.operands.map Expression.ofFloat)
  rw [eval_eq_run, hwords, hoperands, htrace, List.map_map, List.flatMap_map]
  exact ⟨List.map_id m.operands, List.map_eq_flatMap.symm⟩

/-- Evaluated as a phrase, a prompt pushes the operands that it shows, the first one first, and
nothing else. So it shows which operands there are. -/
theorem prompt_lossless :
    m.prompt.toList.getLast? = some '>' ∧
    (empty.eval (unprompt m.prompt)).trace = m.operands.map Entry.push ∧
    (empty.eval (unprompt m.prompt)).machine.operands = m.operands ∧
    ∀ n : Machine, m.prompt = n.prompt ↔ m.operands = n.operands := by
  obtain ⟨hoperands, htrace⟩ := m.eval_unprompt_prompt
  refine ⟨by simp [prompt], htrace, hoperands, fun n => ⟨?_, ?_⟩⟩
  · intro h
    rw [← hoperands, h, n.eval_unprompt_prompt.1]
  · intro h
    rw [prompt, h, prompt]

end Machine

end ReversePolish
