import ReversePolish.Token
import ReversePolish.Text.Blank

/-!
# Words and the space between them

A word that is understood holds no white space: commands, operators and names are in ASCII, letter
case moves no blank, and a numeral is made of digits, signs, a point and letters. So words that are
understood can be set apart by white space of any kind and amount (`Text.Spaced`), and cutting the
text gives them back.
-/

namespace ReversePolish

namespace Text

def Solid (s : List Char) : Prop := ∀ c ∈ s, isBlank c = false

instance (s : List Char) : Decidable (Solid s) :=
  decidable_of_iff (s.all fun c => !isBlank c) (by simp [Solid])

def IsWord (s : List Char) : Prop := s ≠ [] ∧ Solid s

instance (s : List Char) : Decidable (IsWord s) := inferInstanceAs (Decidable (s ≠ [] ∧ Solid s))

theorem solid_nil : Solid [] := fun _ h => absurd h List.not_mem_nil

theorem solid_cons {c : Char} {s : List Char} : Solid (c :: s) ↔ isBlank c = false ∧ Solid s :=
  List.forall_mem_cons

theorem solid_append {s t : List Char} : Solid (s ++ t) ↔ Solid s ∧ Solid t :=
  List.forall_mem_append

theorem isBlank_iff {c : Char} :
    isBlank c = true ↔ (0x09 ≤ c.toNat ∧ c.toNat ≤ 0x0D) ∨ c.toNat = 0x20 ∨ c.toNat = 0x85 ∨
      c.toNat = 0xA0 ∨ c.toNat = 0x1680 ∨ (0x2000 ≤ c.toNat ∧ c.toNat ≤ 0x200A) ∨
      (0x2028 ≤ c.toNat ∧ c.toNat ≤ 0x2029) ∨ c.toNat = 0x202F ∨ c.toNat = 0x205F ∨
      c.toNat = 0x3000 := by
  simp only [isBlank, inRanges, blankRanges, List.any_cons, List.any_nil, Bool.or_false,
    Bool.or_eq_true, Bool.and_eq_true, decide_eq_true_eq]
  omega

theorem solid_of_all_isDigit {s : List Char} (h : ∀ c ∈ s, c.isDigit = true) : Solid s := by
  intro c hc
  have hd := h c hc
  rw [Bool.eq_false_iff, Ne, isBlank_iff]
  simp only [Char.isDigit, Bool.and_eq_true, decide_eq_true_eq, ge_iff_le, UInt32.le_iff_toNat_le,
    Char.toNat_val] at hd
  change 48 ≤ c.toNat ∧ c.toNat ≤ 57 at hd
  omega

theorem toLower_of_isBlank {c : Char} (h : isBlank c = true) : c.toLower = c := by
  rw [isBlank_iff] at h
  have hu : ¬(65 ≤ c.toNat ∧ c.toNat ≤ 90) := by omega
  refine dif_neg ?_
  simpa [UInt32.le_iff_toNat_le] using hu

theorem lowerCase_of_isBlank {c : Char} (h : isBlank c = true) : lowerCase c = [c] := by
  rw [lowerCase, if_neg, if_neg, toLower_of_isBlank h]
  · rintro rfl
    exact absurd h (by decide)
  · rintro rfl
    exact absurd h (by decide)

theorem solid_of_forall_blank {s t : List Char} (ht : Solid t)
    (h : ∀ c ∈ s, isBlank c = true → c ∈ t) : Solid s := by
  intro c hc
  cases hb : isBlank c with
  | false => rfl
  | true => exact absurd (ht c (h c hc hb)) (by simp [hb])

theorem solid_of_map_toLower {s : List Char} (h : Solid (s.map Char.toLower)) : Solid s :=
  solid_of_forall_blank h fun c hc hb => List.mem_map.mpr ⟨c, hc, toLower_of_isBlank hb⟩

theorem solid_of_fold {s : List Char} (h : Solid (fold s)) : Solid s :=
  solid_of_forall_blank h fun c hc hb =>
    List.mem_flatMap.mpr ⟨c, hc, by simp [lowerCase_of_isBlank hb]⟩

/-- A text that holds these words and white space around them: any before the first and behind the
last, and some between two. -/
inductive Spaced : List (List Char) → List Char → Prop
  | empty : Spaced [] []
  | blank {ws : List (List Char)} {c : Char} {s : List Char} (hc : isBlank c = true)
      (hs : Spaced ws s) : Spaced ws (c :: s)
  | last (w : List Char) : Spaced [w] w
  | word (w : List Char) {ws : List (List Char)} {c : Char} {s : List Char} (hc : isBlank c = true)
      (hs : Spaced ws s) : Spaced (w :: ws) (w ++ c :: s)

theorem words_of_spaced {ws : List (List Char)} {s : List Char} (h : Spaced ws s)
    (hw : ∀ w ∈ ws, IsWord w) : words s = ws := by
  induction h with
  | empty => rfl
  | blank hc _ ih => rw [words_blank hc, ih hw]
  | last w =>
    obtain ⟨hne, hsolid⟩ := hw w List.mem_cons_self
    exact words_of_word hne hsolid
  | word w hc _ ih =>
    obtain ⟨hne, hsolid⟩ := hw w List.mem_cons_self
    rw [words_append_blank w hc, words_of_word hne hsolid]
    rw [ih fun v hv => hw v (List.mem_cons_of_mem w hv)]
    rfl

end Text

namespace Numeral

open Text (Solid solid_nil solid_cons solid_append)

theorem solid_of_splitSign {s : List Char} (h : Solid (splitSign s).2) : Solid s := by
  unfold splitSign at h
  split at h
  · exact solid_cons.mpr ⟨by decide, h⟩
  · exact solid_cons.mpr ⟨by decide, h⟩
  · exact h

theorem solid_fst_splitDigits (s : List Char) : Solid (splitDigits s).1 :=
  Text.solid_of_all_isDigit fun _ h => isDigit_of_mem_splitDigits h

theorem solid_of_splitDigits {s : List Char} (h : Solid (splitDigits s).2) : Solid s := by
  rw [← splitDigits_append s]
  exact solid_append.mpr ⟨solid_fst_splitDigits s, h⟩

theorem solid_of_splitFraction {s : List Char} (h : Solid (splitFraction s).2) : Solid s := by
  unfold splitFraction at h
  split at h
  · exact solid_cons.mpr ⟨by decide, solid_of_splitDigits h⟩
  · exact h

theorem solid_of_exponent? {s : List Char} {e : Int} (h : exponent? s = some e) : Solid s := by
  cases s with
  | nil => exact solid_nil
  | cons c s =>
    simp only [exponent?] at h
    split at h
    · rename_i hc
      obtain ⟨hc, _, hd⟩ := hc
      refine solid_cons.mpr ⟨?_, solid_of_splitSign ?_⟩
      · rcases hc with rfl | rfl <;> decide
      · exact Text.solid_of_all_isDigit (List.all_eq_true.mp hd)
    · cases h

theorem solid_of_decimal? {s : List Char} {d : Decimal} (h : decimal? s = some d) : Solid s := by
  simp only [decimal?] at h
  split at h
  · cases h
  · obtain ⟨e, he, _⟩ := Option.map_eq_some_iff.mp h
    exact solid_of_splitDigits (solid_of_splitFraction (solid_of_exponent? he))

theorem solid_of_named? {s : List Char} {m : Magnitude} (h : named? s = some m) : Solid s := by
  unfold named? at h
  split at h
  · decide
  · decide
  · decide
  · cases h

theorem isWord_of_read {s : List Char} {n : Numeral} (h : read s = .ok n) : Text.IsWord s := by
  rw [read] at h
  split at h
  · cases h
  · rename_i hne
    refine ⟨hne, solid_of_splitSign ?_⟩
    simp only at h
    split at h
    · rename_i m hm
      rcases Option.or_eq_some_iff.mp hm with hd | ⟨_, hn⟩
      · obtain ⟨d, hd, _⟩ := Option.map_eq_some_iff.mp hd
        exact solid_of_decimal? hd
      · exact Text.solid_of_map_toLower (solid_of_named? hn)
    · cases h

end Numeral

namespace Token

open Text (Solid IsWord)

theorem mem_of_ofName? {n : String} {c : Constant} (h : Constant.ofName? n = some c) :
    n ∈ ["pi", "e", "ans", "infinity"] := by
  unfold Constant.ofName? at h
  split at h <;> simp_all

theorem mem_of_command? {w : String} {t : Token} (h : command? w = some t) :
    w ∈ ["break", "exit", "quit", "bye", "clear", "*", "+", "-", "/", "^"] := by
  unfold command? at h
  split at h
  · simp
  · simp
  · simp
  · simp
  · simp
  · obtain ⟨op, hop, _⟩ := Option.map_eq_some_iff.mp h
    unfold Operator.ofSymbol? at hop
    split at hop <;> simp_all

theorem isWord_of_command? {w : String} {t : Token} (h : command? w = some t) :
    IsWord w.toList := by
  have hall : ∀ v ∈ ["break", "exit", "quit", "bye", "clear", "*", "+", "-", "/", "^"],
      IsWord v.toList := by decide
  exact hall w (mem_of_command? h)

theorem isWord_of_constant? {w : String} {t : Token} (h : constant? w = some t) :
    IsWord w.toList := by
  simp only [constant?] at h
  obtain ⟨c, hc, _⟩ := Option.map_eq_some_iff.mp h
  constructor
  · intro hw
    rw [hw] at hc
    cases hc
  · have hall : ∀ n ∈ ["pi", "e", "ans", "infinity"], Solid n.toList := by decide
    have hbare := hall _ (mem_of_ofName? hc)
    rw [String.toList_ofList] at hbare
    exact Text.solid_of_fold (Numeral.solid_of_splitSign hbare)

theorem isWord_of_classify {w : String} {t : Token} (h : classify w = .ok t) :
    IsWord w.toList := by
  unfold classify at h
  split at h
  · rename_i t' ht
    rcases Option.or_eq_some_iff.mp ht with hc | ⟨_, hc⟩
    · exact isWord_of_command? hc
    · exact isWord_of_constant? hc
  · split at h
    · rename_i n hn
      exact Numeral.isWord_of_read hn
    · cases h

end Token

end ReversePolish
