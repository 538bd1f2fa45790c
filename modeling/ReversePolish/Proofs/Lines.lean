import ReversePolish.Text.Backspace
import ReversePolish.Text.Blank
import ReversePolish.Text.Lines

/-!
# Lines of a text and lines of its bytes

No byte of a character in UTF-8 is a line feed but that of the line feed, so the lines of the bytes
of a text are the bytes of its lines, and each can be read by itself. What ends a line is white
space: the words of a text are those of its lines, with their terminators or without.
-/

namespace ReversePolish.Text

variable {α β : Type} {ends : α → Bool}

theorem cutAfter_line {a : List α} (ha : ∀ x ∈ a, ends x = false) {x : α} (hx : ends x = true)
    (b : List α) : cutAfter ends (a ++ x :: b) = (a ++ [x]) :: cutAfter ends b := by
  induction a with
  | nil => simp [cutAfter, hx]
  | cons y a ih =>
    obtain ⟨hy, ha⟩ := List.forall_mem_cons.mp ha
    simp [cutAfter, hy, ih ha]

theorem cutAfter_rest {a : List α} (ha : ∀ x ∈ a, ends x = false) (hne : a ≠ []) :
    cutAfter ends a = [a] := by
  induction a with
  | nil => exact absurd rfl hne
  | cons y a ih =>
    obtain ⟨hy, ha⟩ := List.forall_mem_cons.mp ha
    cases a with
    | nil => simp [cutAfter, hy]
    | cons z a => rw [cutAfter, ih ha (by simp), hy]; rfl

theorem cutAfter_append {a : List α} (ha : ∀ x ∈ a, ends x = false) (hne : a ≠ []) (s : List α) :
    cutAfter ends (a ++ s) = (a ++ (cutAfter ends s).headD []) :: (cutAfter ends s).tail := by
  induction a with
  | nil => exact absurd rfl hne
  | cons y a ih =>
    obtain ⟨hy, ha⟩ := List.forall_mem_cons.mp ha
    by_cases hnil : a = []
    · subst hnil
      rw [List.cons_append, List.nil_append, cutAfter, hy]
      cases cutAfter ends s <;> rfl
    · simp [cutAfter, hy, ih ha hnil]

theorem lines_induction (ends : α → Bool) {motive : List α → Prop} (nil : motive [])
    (rest : ∀ a, (∀ x ∈ a, ends x = false) → a ≠ [] → motive a)
    (line : ∀ a x b, (∀ y ∈ a, ends y = false) → ends x = true → motive b → motive (a ++ x :: b))
    (s : List α) : motive s := by
  have go : ∀ s a : List α, (∀ x ∈ a, ends x = false) → motive (a ++ s) := by
    intro s
    induction s with
    | nil =>
      intro a ha
      by_cases hne : a = []
      · simpa [hne] using nil
      · simpa using rest a ha hne
    | cons x s ih =>
      intro a ha
      cases hx : ends x with
      | true => exact line a x s ha hx (ih [] (by simp))
      | false =>
        have hax : ∀ y ∈ a ++ [x], ends y = false := by
          intro y hy
          rcases List.mem_append.mp hy with hy | hy
          · exact ha y hy
          · rw [List.mem_singleton.mp hy, hx]
        simpa using ih (a ++ [x]) hax
  exact go s [] (by simp)

/-- Cutting and spelling out commute when only what ends a line is spelled with such an end, and is
spelled with nothing else. -/
theorem cutAfter_flatMap {spell : β → List α} {stops : β → Bool}
    (hstop : ∀ c, stops c = true → ∃ x, spell c = [x] ∧ ends x = true)
    (hgo : ∀ c, stops c = false → spell c ≠ [] ∧ ∀ x ∈ spell c, ends x = false) (s : List β) :
    cutAfter ends (s.flatMap spell) = (cutAfter stops s).map (List.flatMap spell) := by
  have hline : ∀ a : List β, (∀ c ∈ a, stops c = false) →
      ∀ x ∈ a.flatMap spell, ends x = false := by
    intro a ha x hx
    obtain ⟨c, hc, hx⟩ := List.mem_flatMap.mp hx
    exact (hgo c (ha c hc)).2 x hx
  induction s using lines_induction stops with
  | nil => rfl
  | rest a ha hne =>
    have hs : a.flatMap spell ≠ [] := by
      obtain ⟨c, a, rfl⟩ := List.exists_cons_of_ne_nil hne
      intro h
      exact (hgo c (ha c List.mem_cons_self)).1 (List.append_eq_nil_iff.mp h).1
    rw [cutAfter_rest ha hne, cutAfter_rest (hline a ha) hs]
    rfl
  | line a c b ha hc ih =>
    obtain ⟨x, hx, hends⟩ := hstop c hc
    have hs : (a ++ c :: b).flatMap spell = a.flatMap spell ++ x :: b.flatMap spell := by
      simp [hx]
    rw [hs, cutAfter_line (hline a ha) hends, cutAfter_line ha hc, ih]
    simp [hx]

def utf8 (s : String) : List UInt8 := s.toUTF8.data.toList

theorem utf8_eq_flatMap (s : String) : utf8 s = s.toList.flatMap String.utf8EncodeChar := by
  rw [utf8, String.toUTF8_eq_toByteArray, ← String.utf8Encode_toList, List.utf8Encode]
  simp

/-- Of all characters only the line feed has its byte, for the bytes of one beyond ASCII are beyond
ASCII too. -/
theorem isLineFeed_of_mem_utf8EncodeChar {c : Char} (hc : c ≠ '\n') {b : UInt8}
    (hb : b ∈ String.utf8EncodeChar c) : isLineFeed b = false := by
  have hn : c.val.toNat ≠ 10 := fun h => hc (Char.ext (UInt32.toNat_inj.mp h))
  have hne : ∀ n, n % 256 ≠ 10 → isLineFeed (UInt8.ofNat n) = false := by
    intro n h
    rw [isLineFeed, beq_eq_false_iff_ne, Ne, ← UInt8.toNat_inj, UInt8.toNat_ofNat']
    exact h
  unfold String.utf8EncodeChar at hb
  simp only at hb
  split at hb
  · rw [List.mem_singleton.mp hb]
    exact hne _ (by omega)
  · split at hb
    · simp only [List.mem_cons, List.not_mem_nil, or_false] at hb
      rcases hb with rfl | rfl <;> exact hne _ (by omega)
    · split at hb
      · simp only [List.mem_cons, List.not_mem_nil, or_false] at hb
        rcases hb with rfl | rfl | rfl <;> exact hne _ (by omega)
      · simp only [List.mem_cons, List.not_mem_nil, or_false] at hb
        rcases hb with rfl | rfl | rfl | rfl <;> exact hne _ (by omega)

/-- The lines of a text, each with its terminator. -/
def linesOf (s : String) : List (List Char) := cutAfter (· == '\n') s.toList

theorem lines_utf8 (s : String) :
    lines (utf8 s) = (linesOf s).map (List.flatMap String.utf8EncodeChar) := by
  rw [utf8_eq_flatMap]
  apply cutAfter_flatMap
  · intro c hc
    rw [eq_of_beq hc]
    exact ⟨0x0A, rfl, rfl⟩
  · intro c hc
    exact ⟨String.utf8EncodeChar_ne_nil, fun b hb =>
      isLineFeed_of_mem_utf8EncodeChar (by simpa using hc) hb⟩

theorem decode_flatMap_utf8EncodeChar (l : List Char) :
    decode (l.flatMap String.utf8EncodeChar) = some (String.ofList l) := by
  have hb : (⟨(l.flatMap String.utf8EncodeChar).toArray⟩ : ByteArray) =
      (String.ofList l).toByteArray := by
    simp [List.utf8Encode, ByteArray.ext_iff]
  rw [decode, String.fromUTF8?, dif_pos (hb ▸ (String.ofList l).isValidUTF8)]
  simp only [hb]
  rfl

theorem scanWord_chomp (l : List Char) : scanWord (chomp l) = scanWord l := by
  fun_induction chomp l with
  | case1 => rfl
  | case2 => rfl
  | case3 => rfl
  | case4 c s _ _ ih => simp only [scanWord, ih]

theorem words_chomp (l : List Char) : words (chomp l) = words l := by
  rw [words, scanWord_chomp]
  rfl

theorem flatMap_words_lines (s : List Char) :
    (cutAfter (· == '\n') s).flatMap words = words s := by
  induction s using lines_induction (· == '\n') with
  | nil => rfl
  | rest a ha hne => simp [cutAfter_rest ha hne]
  | line a c b ha hc ih =>
    have hblank : isBlank c = true := by
      rw [eq_of_beq hc]
      decide
    rw [cutAfter_line ha hc, List.flatMap_cons, ih, words_append_blank a hblank,
      words_append_blank a hblank]
    simp

theorem mem_of_mem_chomp {l : List Char} {c : Char} (h : c ∈ chomp l) : c ∈ l := by
  fun_induction chomp l with
  | case1 => exact h
  | case2 => exact absurd h List.not_mem_nil
  | case3 => exact absurd h List.not_mem_nil
  | case4 d s _ _ ih =>
    rcases List.mem_cons.mp h with rfl | h
    · exact List.mem_cons_self
    · exact List.mem_cons_of_mem d (ih h)

end ReversePolish.Text
