import ReversePolish.Text.Quoted

/-!
# Quotations end at their last mark

The spelling of a character between quotes tells the character, and where the spelling ends
(`spell_append_inj`). No spelling opens with a quote, so a quotation tells its text, and where it
ends itself, whatever stands behind it (`encode_append_inj`).
-/

namespace ReversePolish.Text.Quoted

section Digits

variable {n k : Nat}

theorem digitChar_inj (hn : n < 16) (hk : k < 16) (h : n.digitChar = k.digitChar) : n = k := by
  have hall : ∀ a b : Fin 16, a.val.digitChar = b.val.digitChar → a = b := by decide
  exact congrArg Fin.val (hall ⟨n, hn⟩ ⟨k, hk⟩ h)

theorem toDigits_inj (h : Nat.toDigits 16 n = Nat.toDigits 16 k) : n = k := by
  induction n using Nat.strongRecOn generalizing k with
  | ind n ih =>
    have hlength := congrArg List.length h
    rcases Nat.lt_or_ge n 16 with hn | hn <;> rcases Nat.lt_or_ge k 16 with hk | hk
    · rw [Nat.toDigits_of_lt_base hn, Nat.toDigits_of_lt_base hk] at h
      exact digitChar_inj hn hk (List.cons.inj h).1
    · have hpos : 0 < (Nat.toDigits 16 (k / 16)).length := Nat.length_toDigits_pos
      rw [Nat.toDigits_of_lt_base hn, Nat.toDigits_of_base_le (by decide) hk] at hlength
      simp only [List.length_append, List.length_singleton] at hlength
      omega
    · have hpos : 0 < (Nat.toDigits 16 (n / 16)).length := Nat.length_toDigits_pos
      rw [Nat.toDigits_of_lt_base hk, Nat.toDigits_of_base_le (by decide) hn] at hlength
      simp only [List.length_append, List.length_singleton] at hlength
      omega
    · rw [Nat.toDigits_of_base_le (by decide) hn, Nat.toDigits_of_base_le (by decide) hk] at h
      obtain ⟨hfront, hlast⟩ := List.append_inj' h rfl
      have hquotient := ih (n / 16) (by omega) hfront
      have hremainder := digitChar_inj (Nat.mod_lt n (by decide)) (Nat.mod_lt k (by decide))
        (List.cons.inj hlast).1
      omega

theorem exists_digitChar_of_mem {c : Char} (h : c ∈ Nat.toDigits 16 n) :
    ∃ d < 16, c = d.digitChar := by
  induction n using Nat.strongRecOn with
  | ind n ih =>
    rcases Nat.lt_or_ge n 16 with hn | hn
    · rw [Nat.toDigits_of_lt_base hn, List.mem_singleton] at h
      exact ⟨n, hn, h⟩
    · rw [Nat.toDigits_of_base_le (by decide) hn, List.mem_append, List.mem_singleton] at h
      rcases h with h | h
      · exact ih (n / 16) (by omega) h
      · exact ⟨n % 16, Nat.mod_lt n (by decide), h⟩

theorem brace_not_mem_toDigits (n : Nat) : '}' ∉ Nat.toDigits 16 n := by
  intro h
  obtain ⟨d, hd, hbrace⟩ := exists_digitChar_of_mem h
  have hall : ∀ a : Fin 16, '}' ≠ a.val.digitChar := by decide
  exact hall ⟨d, hd⟩ hbrace

/-- Texts are the same if they are the same up to their first brace and behind it. -/
theorem append_brace_inj {u v s t : List Char} (hu : '}' ∉ u) (hv : '}' ∉ v)
    (h : u ++ '}' :: s = v ++ '}' :: t) : u = v ∧ s = t := by
  induction u generalizing v with
  | nil =>
    cases v with
    | nil => exact ⟨rfl, (List.cons.inj h).2⟩
    | cons d v => exact absurd ((List.cons.inj h).1 ▸ List.mem_cons_self) hv
  | cons c u ih =>
    cases v with
    | nil => exact absurd ((List.cons.inj h).1 ▸ List.mem_cons_self) hu
    | cons d v =>
      obtain ⟨rfl, hrest⟩ := List.cons.inj h
      exact (ih (List.not_mem_of_not_mem_cons hu) (List.not_mem_of_not_mem_cons hv) hrest).imp_left
        (congrArg _)

theorem braced_append_inj {s t : List Char} (h : braced n ++ s = braced k ++ t) :
    n = k ∧ s = t := by
  have hdigits : Nat.toDigits 16 n ++ '}' :: s = Nat.toDigits 16 k ++ '}' :: t := by
    simpa [braced] using h
  exact (append_brace_inj (brace_not_mem_toDigits n) (brace_not_mem_toDigits k) hdigits).imp_left
    toDigits_inj

end Digits

variable {c d l : Char} {s t a b : List Char}

def letters : List (Char × Char) :=
  [('"', '"'), ('\\', '\\'), ('\t', 't'), ('\n', 'n'), ('\r', 'r'), ('\x00', '0')]

theorem mem_letters_of_letter? (h : letter? c = some l) : (c, l) ∈ letters := by
  unfold letter? at h
  split at h <;> cases h <;> decide

theorem letter?_inj (hc : letter? c = some l) (hd : letter? d = some l) : c = d := by
  have hall : ∀ p ∈ letters, ∀ q ∈ letters, p.2 = q.2 → p = q := by decide
  exact congrArg Prod.fst
    (hall _ (mem_letters_of_letter? hc) _ (mem_letters_of_letter? hd) rfl)

theorem letter?_ne_u (h : letter? c = some l) : l ≠ 'u' := by
  have hall : ∀ p ∈ letters, p.2 ≠ 'u' := by decide
  exact hall _ (mem_letters_of_letter? h)

inductive Spelled (c : Char) : List Char → Prop
  | letter {l : Char} (h : letter? c = some l) : Spelled c ['\\', l]
  | plain (hquote : c ≠ '"') (hslash : c ≠ '\\') : Spelled c [c]
  | braced : Spelled c ('\\' :: 'u' :: braced c.toNat)

theorem spelled_spell (c : Char) : Spelled c (spell c) := by
  rw [spell]
  cases h : letter? c with
  | some l => exact .letter h
  | none =>
    simp only
    split
    · refine .plain ?_ ?_
      · rintro rfl
        cases h
      · rintro rfl
        cases h
    · exact .braced

theorem spell_append_inj (h : spell c ++ s = spell d ++ t) : c = d ∧ s = t := by
  have hc := spelled_spell c
  have hd := spelled_spell d
  generalize spell c = u at hc h
  generalize spell d = v at hd h
  cases hc with
  | letter hl =>
    cases hd with
    | letter hk =>
      obtain ⟨rfl, rfl⟩ : _ ∧ s = t := by simpa using h
      exact ⟨letter?_inj hl hk, rfl⟩
    | plain _ hslash => exact absurd (List.cons.inj h).1.symm hslash
    | braced => exact absurd (List.cons.inj (List.cons.inj h).2).1 (letter?_ne_u hl)
  | plain _ hslash =>
    cases hd with
    | letter => exact absurd (List.cons.inj h).1 hslash
    | plain => simpa using h
    | braced => exact absurd (List.cons.inj h).1 hslash
  | braced =>
    cases hd with
    | letter hk => exact absurd (List.cons.inj (List.cons.inj h).2).1.symm (letter?_ne_u hk)
    | plain _ hslash => exact absurd (List.cons.inj h).1.symm hslash
    | braced =>
      obtain ⟨hn, hrest⟩ := braced_append_inj (List.cons.inj (List.cons.inj h).2).2
      exact ⟨Char.toNat_inj.mp hn, hrest⟩

theorem spell_append_ne (c : Char) (s : List Char) : spell c ++ s ≠ '"' :: t := by
  have hc := spelled_spell c
  generalize spell c = u at hc
  intro h
  cases hc with
  | letter => exact absurd (List.cons.inj h).1 (by decide)
  | plain hquote => exact hquote (List.cons.inj h).1
  | braced => exact absurd (List.cons.inj h).1 (by decide)

theorem spellings_append_inj (h : s.flatMap spell ++ '"' :: a = t.flatMap spell ++ '"' :: b) :
    s = t ∧ a = b := by
  induction s generalizing t with
  | nil =>
    cases t with
    | nil => exact ⟨rfl, (List.cons.inj h).2⟩
    | cons d t =>
      rw [List.flatMap_cons, List.append_assoc] at h
      exact absurd h.symm (spell_append_ne d _)
  | cons c s ih =>
    rw [List.flatMap_cons, List.append_assoc] at h
    cases t with
    | nil => exact absurd h (spell_append_ne c _)
    | cons d t =>
      rw [List.flatMap_cons, List.append_assoc] at h
      obtain ⟨rfl, hrest⟩ := spell_append_inj h
      exact (ih hrest).imp_left (congrArg _)

/-- A quotation tells its text and what stands behind it. -/
theorem encode_append_inj (h : encode s ++ a = encode t ++ b) : s = t ∧ a = b := by
  apply spellings_append_inj
  simpa [encode] using h

theorem quote_append_inj {s t a b : String} (h : quote s ++ a = quote t ++ b) :
    s = t ∧ a = b := by
  have hlist := congrArg String.toList h
  simp only [quote, String.toList_append, String.toList_ofList] at hlist
  exact (encode_append_inj hlist).imp String.toList_inj.mp String.toList_inj.mp

end ReversePolish.Text.Quoted
