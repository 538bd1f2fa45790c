import ReversePolish.Proofs.Prompt

/-!
# Canonical texts

A float has two texts, one in answers and one in descriptions. Both have the digits of its shortest
decimal, with zeros around them where the layout wants some, and no numeral that is read as the
float has fewer digits between the zeros at its ends (`length_trim_shown_le`). The layouts part
where the leading digit of that decimal is far from the point. It stands at a power of ten or above
just when the float that is read for the power is not above the float (`le_leading_shortest_iff`),
so the values decide which floats are described with an exponent.
-/

namespace ReversePolish

namespace Decimal

theorem exponent_le_leading (d : Decimal) : d.exponent ≤ d.leading := by
  have hcount : 0 < digitCount d.digits := Nat.length_toDigits_pos
  rw [leading]
  omega

/-- The leading digit of a positive decimal stands at a power of ten up to its value. -/
theorem le_leading_iff {d : Decimal} (hd : 0 < d.digits) {e : ℤ} :
    e ≤ d.leading ↔ 10 ^ e ≤ d.value := by
  have hten : (1 : ℚ) ≤ 10 := by norm_num
  have hcount : 0 < digitCount d.digits := Nat.length_toDigits_pos
  rcases lt_or_ge e d.exponent with hlt | hge
  · have hvalue : 10 ^ ((0 : ℕ) + d.exponent) ≤ d.value := pow_le_value_iff.mpr hd
    rw [Nat.cast_zero, zero_add] at hvalue
    refine iff_of_true ?_ ((zpow_le_zpow_right₀ hten hlt.le).trans hvalue)
    rw [leading]
    omega
  · obtain ⟨k, hk⟩ := Int.eq_ofNat_of_zero_le (sub_nonneg.mpr hge)
    obtain rfl : e = k + d.exponent := by omega
    have hdigits : 10 ^ k ≤ d.digits ↔ k < digitCount d.digits := by
      rcases Nat.eq_zero_or_pos k with rfl | hpos
      · exact iff_of_true hd hcount
      · rw [← not_iff_not, not_le, not_lt]
        exact (Nat.length_toDigits_le_iff (by decide) hpos).symm
    rw [pow_le_value_iff, hdigits, leading]
    omega

end Decimal

namespace Binary64

variable {c : ℕ} {d : Decimal}

/-- A decimal that is not rounded down is compared with floats as its code is. -/
theorem ofDecimal_le_iff (hd : inUnits d.value ≤ units (ofDecimal d)) (hc : c ≤ infinityCode) :
    ofDecimal d ≤ c ↔ inUnits d.value ≤ units c := by
  constructor
  · intro h
    refine hd.trans ?_
    exact_mod_cast units_strictMono.monotone h
  · exact (roundsTo_ofDecimal d).mono (roundsTo_units hc)

/-- A float that is read for a power of ten has no shortest decimal below that power: it would be
one on a finer grid. -/
theorem le_leading_shortest_iff (h0 : 0 < c) (hc : c < infinityCode) {e : ℤ} :
    e ≤ (shortest c).leading ↔ ofDecimal ⟨1, e⟩ ≤ c := by
  have hshort := roundsTo_shortest h0 hc
  have hten := roundsTo_ofDecimal ⟨1, e⟩
  rw [Decimal.le_leading_iff (digits_pos_of_roundsTo h0 hshort), ← Decimal.value_one]
  constructor
  · intro h
    exact hten.mono hshort (inUnits_le_inUnits.mpr h)
  · intro h
    by_contra hlt
    have hcode : ofDecimal ⟨1, e⟩ = c :=
      h.antisymm (hshort.mono hten (inUnits_le_inUnits.mpr (not_le.mp hlt).le))
    have hexp : e ≤ (shortest c).exponent := exponent_le_of_roundsTo h0 hc (hcode ▸ hten)
    apply hlt
    rw [Decimal.value_one, ← Decimal.le_leading_iff (digits_pos_of_roundsTo h0 hshort)]
    exact hexp.trans (Decimal.exponent_le_leading _)

theorem inUnits_div_le {num den n : ℕ} (hden : 0 < den) (h : num <<< 1074 ≤ n * den) :
    inUnits (num / den) ≤ n := by
  rw [inUnits_div, div_le_iff₀ (by exact_mod_cast hden)]
  exact_mod_cast h

theorem inUnits_ten_thousandth_le :
    inUnits (10 ^ (-4 : ℤ)) ≤ units (ofDecimal ⟨1, -4⟩) := by
  have hten : (10 : ℚ) ^ (-4 : ℤ) = (1 : ℕ) / (10 ^ 4 : ℕ) := by norm_num
  rw [hten]
  exact inUnits_div_le (by decide) (by decide +kernel)

theorem inUnits_ten_to_sixteen_le :
    inUnits (10 ^ (16 : ℤ)) ≤ units (ofDecimal ⟨1, 16⟩) := by
  have hten : (10 : ℚ) ^ (16 : ℤ) = (10 ^ 16 : ℕ) / (1 : ℕ) := by norm_num
  rw [hten]
  exact inUnits_div_le (by decide) (by decide +kernel)

/-- A power of ten that is not rounded down to a float parts the leading digits as it parts the
values of floats. -/
theorem le_leading_shortest_iff_value (h0 : 0 < c) (hc : c < infinityCode) {e : ℤ}
    (hup : inUnits (10 ^ e) ≤ units (ofDecimal ⟨1, e⟩)) :
    e ≤ (shortest c).leading ↔ 10 ^ e ≤ (units c / 2 ^ 1074 : ℚ) := by
  have hunit : (0 : ℚ) < 2 ^ 1074 := by positivity
  rw [← Decimal.value_one] at hup
  rw [le_leading_shortest_iff h0 hc, ofDecimal_le_iff hup hc.le, Decimal.value_one, inUnits,
    le_div_iff₀ hunit]

end Binary64

namespace Numeral

open Binary64

/-- Digits without the zeros at their ends. -/
def trim (ds : List Char) : List Char := (ds.dropWhile (· == '0')).rdropWhile (· == '0')

theorem dropWhile_zeros_append (k : ℕ) (ds : List Char) :
    (zeros k ++ ds).dropWhile (· == '0') = ds.dropWhile (· == '0') := by
  simp

theorem rdropWhile_append_zeros (k : ℕ) (ds : List Char) :
    (ds ++ zeros k).rdropWhile (· == '0') = ds.rdropWhile (· == '0') := by
  rw [List.rdropWhile, List.reverse_append, List.reverse_replicate, dropWhile_zeros_append,
    List.rdropWhile]

theorem trim_zeros_append (a b : ℕ) (ds : List Char) :
    trim (zeros a ++ ds ++ zeros b) = trim ds := by
  rw [trim, List.append_assoc, dropWhile_zeros_append, List.dropWhile_append]
  split
  · rename_i h
    rw [trim, List.isEmpty_iff.mp h, List.dropWhile_replicate]
    rfl
  · rw [rdropWhile_append_zeros, trim]

theorem exists_zeros_trim (ds : List Char) : ∃ a b, zeros a ++ trim ds ++ zeros b = ds := by
  have hfront : ds.takeWhile (· == '0') = zeros (ds.takeWhile (· == '0')).length :=
    List.eq_replicate_of_mem fun c hc => by simpa using List.mem_takeWhile_imp hc
  have hback : (ds.dropWhile (· == '0')).rtakeWhile (· == '0') =
      zeros ((ds.dropWhile (· == '0')).rtakeWhile (· == '0')).length :=
    List.eq_replicate_of_mem fun c hc => by simpa using List.mem_rtakeWhile_imp hc
  refine ⟨(ds.takeWhile (· == '0')).length,
    ((ds.dropWhile (· == '0')).rtakeWhile (· == '0')).length, ?_⟩
  rw [List.append_assoc, trim, ← hback, List.rdropWhile_append_rtakeWhile, ← hfront,
    List.takeWhile_append_dropWhile]

theorem length_trim_le (ds : List Char) : (trim ds).length ≤ ds.length := by
  obtain ⟨a, b, h⟩ := exists_zeros_trim ds
  have hlength := congrArg List.length h
  rw [List.length_append, List.length_append] at hlength
  omega

namespace Spelling

variable (sp : Spelling)

/-- The digits without the zeros at their ends, and without the point. -/
def significant : List Char := trim (sp.whole ++ sp.fraction)

variable {sp} {d : Decimal} {c : ℕ}

theorem Spells.significant_eq (h : sp.Spells d) : sp.significant = trim (digitsOf d.digits) := by
  obtain ⟨a, b, hdigits, -⟩ := h
  rw [significant, hdigits, trim_zeros_append]

theorem isDigit_of_mem_significant {c : Char} (h : c ∈ sp.significant) : c.isDigit = true := by
  obtain ⟨a, b, hdigits⟩ := exists_zeros_trim (sp.whole ++ sp.fraction)
  apply sp.isDigit
  have hmem : c ∈ zeros a ++ sp.significant ++ zeros b :=
    List.mem_append_left _ (List.mem_append_right _ h)
  exact hdigits ▸ hmem

/-- No number that rounds to a code is spelled with fewer significant digits than are shown for the
code. -/
theorem length_trim_shown_le (hc : c < infinityCode) (h : RoundsTo (inUnits sp.value) c) :
    (trim (digitsOf (Layout.shown c).digits)).length ≤ sp.significant.length := by
  rw [Layout.shown]
  split
  · exact Nat.zero_le _
  · rename_i h0
    have hpos : 0 < c := Nat.pos_of_ne_zero h0
    obtain ⟨a, b, hdigits⟩ := exists_zeros_trim (sp.whole ++ sp.fraction)
    rw [value_of_digits hdigits.symm] at h
    have hsome : 0 < sp.significant.length := by
      have hd : 0 < Decimal.ofDigits sp.significant := digits_pos_of_roundsTo hpos h
      apply List.length_pos_of_ne_nil
      intro hnil
      rw [hnil] at hd
      exact absurd hd (by decide)
    calc (trim (digitsOf (shortest c).digits)).length
        ≤ Decimal.digitCount (shortest c).digits := length_trim_le _
      _ ≤ Decimal.digitCount (Decimal.ofDigits sp.significant) :=
        digitCount_shortest_le hpos hc h
      _ ≤ sp.significant.length := by
        rw [Decimal.digitCount, Nat.length_toDigits_le_iff (by decide) hsome]
        exact ofDigits_lt fun c => isDigit_of_mem_significant

end Spelling

end Numeral

def usesExponent (s : String) : Bool := s.toList.any fun c => c = 'e' || c = 'E'

namespace Numeral.Spelling

variable {sp : Spelling}

theorem usesExponent_text : usesExponent sp.text = true ↔ sp.power? ≠ none := by
  have hmark : ∀ c ∈ sp.mark.chars, ¬(c = 'e' ∨ c = 'E') := by
    cases sp.mark <;> simp [Mark.chars]
  have hdigit : ∀ c ∈ sp.whole ++ sp.fraction?.getD [], ¬(c = 'e' ∨ c = 'E') := by
    rintro c hc (rfl | rfl) <;> exact absurd (sp.isDigit _ hc) (by decide)
  obtain ⟨hwhole, hfraction⟩ := List.forall_mem_append.mp hdigit
  have hpoint : ∀ c ∈ (sp.fraction?.map ('.' :: ·)).getD [], ¬(c = 'e' ∨ c = 'E') := by
    cases hf : sp.fraction? with
    | none => exact List.forall_mem_nil _
    | some f =>
      rw [hf] at hfraction
      exact List.forall_mem_cons.mpr ⟨by decide, hfraction⟩
  simp only [usesExponent, text, String.toList_ofList, List.any_eq_true, Bool.or_eq_true,
    decide_eq_true_eq, bare]
  constructor
  · rintro ⟨c, hc, he⟩ hnone
    rw [hnone, Option.map_none, Option.getD_none, List.append_nil, List.mem_append,
      List.mem_append] at hc
    rcases hc with hc | hc | hc
    · exact hmark c hc he
    · exact hwhole c hc he
    · exact hpoint c hc he
  · intro h
    obtain ⟨p, hp⟩ := Option.ne_none_iff_exists'.mp h
    exact ⟨p.letter, by simp [hp, Power.chars], p.isLetter⟩

end Numeral.Spelling

section Texts

open Binary64
open Numeral (Spelling)

variable {x : Float}

theorem positional_shown_iff {a : ℚ} (ha : absolute x = a) :
    Layout.diagnostic.positional (Layout.shown (code x)).leading = true ↔
      a = 0 ∨ 10 ^ (-4 : ℤ) ≤ a ∧ a < 10 ^ (16 : ℤ) := by
  obtain ⟨hx, rfl⟩ := of_absolute_eq ha
  rcases Nat.eq_zero_or_pos (code x) with h0 | h0
  · refine iff_of_true ?_ (Or.inl ?_)
    · rw [h0]
      decide
    · simp [h0, units]
  · have hfour := le_leading_shortest_iff_value h0 hx inUnits_ten_thousandth_le
    have hsixteen := le_leading_shortest_iff_value h0 hx inUnits_ten_to_sixteen_le
    have hpos : 0 < units (code x) := units_strictMono h0
    have hne : (units (code x) / 2 ^ 1074 : ℚ) ≠ 0 := by positivity
    rw [or_iff_right hne, ← hfour, ← not_le, ← hsixteen, Layout.shown, if_neg h0.ne']
    simp only [Layout.diagnostic, Bool.and_eq_true, decide_eq_true_eq]
    omega

theorem usesExponent_layout (layout : Layout) (hx : code x < infinityCode) :
    usesExponent (layout.text x) = true ↔
      ¬layout.positional (Layout.shown (code x)).leading = true := by
  obtain ⟨sp, htext, -, -, hpower⟩ := layout.exists_spelling_text hx
  rw [← htext, Spelling.usesExponent_text]
  exact not_congr hpower

theorem usesExponent_named (layout : Layout) (hx : infinityCode ≤ code x) :
    usesExponent (layout.text x) = false := by
  rw [Layout.text, Layout.chars]
  split
  · rfl
  · rename_i hnan
    have hcode : code x = infinityCode := by
      simp only [isNaN, decide_eq_true_eq] at hnan
      omega
    rw [hcode, Layout.magnitude_infinityCode]
    split <;> rfl

theorem usesExponent_showFloat (x : Float) : usesExponent (showFloat x) = false := by
  rcases Nat.lt_or_ge (code x) infinityCode with hlt | hge
  · rw [← Bool.not_eq_true, showFloat, usesExponent_layout _ hlt, not_not]
    rfl
  · exact usesExponent_named _ hge

theorem usesExponent_diagnostic (x : Float) :
    usesExponent (Layout.diagnostic.text x) = true ↔
      ∃ a : ℚ, absolute x = a ∧ a ≠ 0 ∧ (a < 10 ^ (-4 : ℤ) ∨ 10 ^ (16 : ℤ) ≤ a) := by
  rcases Nat.lt_or_ge (code x) infinityCode with hlt | hge
  · have ha := absolute_eq hlt
    rw [usesExponent_layout _ hlt, positional_shown_iff ha, ha]
    simp only [WithTop.coe_inj, exists_eq_left', not_or, not_and_or, not_le, not_lt, ne_eq]
  · rw [usesExponent_named _ hge, absolute_eq_top hge]
    simp

/-- The two texts of a number are spellings of one decimal, and no spelling that is read as the
number is shorter. -/
theorem exists_spellings (hx : code x < infinityCode) :
    ∃ sp sp' : Spelling, sp.text = showFloat x ∧ sp'.text = Layout.diagnostic.text x ∧
      sp.mark.negative = sp'.mark.negative ∧ sp.value = sp'.value ∧
      sp.significant = sp'.significant ∧
      ∀ other : Spelling, Token.classify other.text = .ok (.number x) →
        sp.significant.length ≤ other.significant.length := by
  obtain ⟨sp, htext, hsign, hspells, -⟩ := Layout.plain.exists_spelling_text hx
  obtain ⟨sp', htext', hsign', hspells', -⟩ := Layout.diagnostic.exists_spelling_text hx
  refine ⟨sp, sp', htext, htext', hsign.trans hsign'.symm,
    hspells.value_eq.trans hspells'.value_eq.symm,
    hspells.significant_eq.trans hspells'.significant_eq.symm, ?_⟩
  intro other hother
  rw [other.classify_text] at hother
  cases hother
  rw [hspells.significant_eq]
  exact Spelling.length_trim_shown_le hx other.roundsTo_code

end Texts

namespace Machine

open Binary64
open Numeral (Spelling)

/-- The text of a float in answers and its text in descriptions are words that are read as this very
float, so its text can be typed and is answered with the same text. Both spell one decimal, and none
with fewer digits is read as the float. They part in the exponent, which answers never show and
descriptions show for the very small and the large. -/
theorem texts_canonical (x : Float) :
    (∀ t ∈ [showFloat x, Layout.diagnostic.text x],
      wordsOf t = [t] ∧ Token.classify t = .ok (.number x)) ∧
    (absolute x ≠ ⊤ → ∃ sp sp' : Spelling,
      sp.text = showFloat x ∧ sp'.text = Layout.diagnostic.text x ∧
      sp.mark.negative = sp'.mark.negative ∧ sp.value = sp'.value ∧
      sp.significant = sp'.significant ∧
      ∀ other : Spelling, Token.classify other.text = .ok (.number x) →
        sp.significant.length ≤ other.significant.length) ∧
    usesExponent (showFloat x) = false ∧
    (usesExponent (Layout.diagnostic.text x) = true ↔
      ∃ a : ℚ, absolute x = a ∧ a ≠ 0 ∧ (a < 10 ^ (-4 : ℤ) ∨ 10 ^ (16 : ℤ) ≤ a)) ∧
    ∀ w, Token.classify w = .ok (.number x) → ∀ m : Machine, (m.eval w).outcome = .proceed x ∧
      ∀ t ∈ [showFloat x, Layout.diagnostic.text x], ∀ n : Machine,
        (n.eval t).outcome = .proceed x := by
  have hread : ∀ t ∈ [showFloat x, Layout.diagnostic.text x],
      Token.classify t = .ok (.number x) := by
    intro t ht
    rcases List.mem_pair.mp ht with rfl | rfl
    · exact Layout.plain.classify_text x
    · exact Layout.diagnostic.classify_text x
  refine ⟨?_, ?_, usesExponent_showFloat x, usesExponent_diagnostic x, ?_⟩
  · intro t ht
    obtain ⟨hne, hsolid⟩ := Token.isWord_of_classify (hread t ht)
    exact ⟨wordsOf_of_word hne hsolid, hread t ht⟩
  · intro hx
    exact exists_spellings (not_le.mp fun hge => hx (absolute_eq_top hge))
  · intro w hw m
    refine ⟨?_, fun t ht n => ?_⟩
    · rw [eval_of_classify_number hw]
    · rw [eval_of_classify_number (hread t ht)]

end Machine

end ReversePolish
