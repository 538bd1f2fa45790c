import ReversePolish.Text.Ranges

/-!
# White space and words

The characters with the Unicode property White_Space, 25 code points in 10 ranges, and the words
of a text: its maximal runs of other characters. Cutting a text at a blank cuts its list of words
(`words_append_blank`), and every word is a nonempty run without blanks (`mem_words`).
-/

namespace ReversePolish.Text

/-- The white space of Unicode as closed ranges of code points, ascending and apart. -/
def blankRanges : List (Nat × Nat) :=
  [(0x09, 0x0D), (0x20, 0x20), (0x85, 0x85), (0xA0, 0xA0), (0x1680, 0x1680), (0x2000, 0x200A),
   (0x2028, 0x2029), (0x202F, 0x202F), (0x205F, 0x205F), (0x3000, 0x3000)]

def isBlank (c : Char) : Bool :=
  inRanges blankRanges c.toNat

/-- Puts a word in front of others; an empty one is no word. -/
def consWord : List Char → List (List Char) → List (List Char)
  | [], ws => ws
  | c :: w, ws => (c :: w) :: ws

/-- The run of characters before the first blank, possibly empty, and the words after it. -/
def scanWord : List Char → List Char × List (List Char)
  | [] => ([], [])
  | c :: s =>
    let r := scanWord s
    if isBlank c then ([], consWord r.1 r.2) else (c :: r.1, r.2)

def words (s : List Char) : List (List Char) :=
  let r := scanWord s
  consWord r.1 r.2

@[simp] theorem words_nil : words [] = [] := rfl

theorem words_blank {c : Char} (h : isBlank c = true) (s : List Char) :
    words (c :: s) = words s := by
  simp [words, scanWord, h, consWord]

theorem consWord_append (w : List Char) (us vs : List (List Char)) :
    consWord w (us ++ vs) = consWord w us ++ vs := by
  cases w <;> rfl

theorem scanWord_append_blank (a : List Char) {c : Char} (h : isBlank c = true) (b : List Char) :
    scanWord (a ++ c :: b) = ((scanWord a).1, (scanWord a).2 ++ words b) := by
  induction a with
  | nil => simp [scanWord, h, words]
  | cons x a ih =>
    by_cases hx : isBlank x = true <;> simp [scanWord, ih, hx, consWord_append]

theorem words_append_blank (a : List Char) {c : Char} (h : isBlank c = true) (b : List Char) :
    words (a ++ c :: b) = words a ++ words b := by
  rw [words, scanWord_append_blank a h b, consWord_append]
  rfl

theorem scanWord_fst_not_blank {s : List Char} {c : Char} (h : c ∈ (scanWord s).1) :
    isBlank c = false := by
  induction s with
  | nil => simp [scanWord] at h
  | cons x s ih =>
    by_cases hx : isBlank x = true
    · simp [scanWord, hx] at h
    · simp only [scanWord, hx] at h
      rcases List.mem_cons.1 h with rfl | h
      · simpa using hx
      · exact ih h

theorem mem_consWord {w u : List Char} {ws : List (List Char)} (h : w ∈ consWord u ws) :
    (w = u ∧ u ≠ []) ∨ w ∈ ws := by
  cases u with
  | nil => exact Or.inr h
  | cons c u =>
    rcases List.mem_cons.1 h with h | h
    · exact Or.inl ⟨h, by simp⟩
    · exact Or.inr h

theorem mem_scanWord_snd {s w : List Char} (h : w ∈ (scanWord s).2) :
    w ≠ [] ∧ ∀ c ∈ w, isBlank c = false := by
  induction s with
  | nil => simp [scanWord] at h
  | cons x s ih =>
    by_cases hx : isBlank x = true
    · simp only [scanWord, hx, if_true] at h
      rcases mem_consWord h with ⟨rfl, hne⟩ | h
      · exact ⟨hne, fun _ hc => scanWord_fst_not_blank hc⟩
      · exact ih h
    · simp only [scanWord, hx] at h
      exact ih h

theorem mem_words {s w : List Char} (h : w ∈ words s) :
    w ≠ [] ∧ ∀ c ∈ w, isBlank c = false := by
  rcases mem_consWord h with ⟨rfl, hne⟩ | h
  · exact ⟨hne, fun _ hc => scanWord_fst_not_blank hc⟩
  · exact mem_scanWord_snd h

theorem scanWord_of_not_blank {w : List Char} (h : ∀ c ∈ w, isBlank c = false) :
    scanWord w = (w, []) := by
  induction w with
  | nil => rfl
  | cons c w ih =>
    simp only [List.mem_cons, forall_eq_or_imp] at h
    simp [scanWord, h.1, ih h.2]

theorem words_of_word {w : List Char} (hne : w ≠ []) (h : ∀ c ∈ w, isBlank c = false) :
    words w = [w] := by
  rw [words, scanWord_of_not_blank h]
  cases w with
  | nil => exact absurd rfl hne
  | cons c w => rfl

end ReversePolish.Text
