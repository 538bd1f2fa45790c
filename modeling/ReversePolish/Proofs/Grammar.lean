import Mathlib.Computability.Language
import ReversePolish.Proofs.LetterCase

/-!
# The language of numerals

Numerals as a language: a sign or none, and a name in any case or a decimal, which is a mantissa
with an exponent or without. A text is read as a numeral exactly if it is one (`mem_numeral_iff`),
and the digits in front of and behind the point, with the exponent, say which decimal it spells
(`decimal?_whole`, `decimal?_point`).
-/

namespace ReversePolish.Numeral

open scoped Computability

def oneOf (cs : List Char) : Language Char := {s | ∃ c ∈ cs, s = [c]}

/-- The spellings of a name in lower and upper case. -/
def anyCase (name : List Char) : Language Char := {s | s.map Char.toLower = name}

def digit : Language Char := {s | ∃ c : Char, c.isDigit = true ∧ s = [c]}

def sign : Language Char := 1 + oneOf ['+', '-']

def mantissa : Language Char :=
  digit * digit∗ + digit * digit∗ * oneOf ['.'] * digit∗ + digit∗ * oneOf ['.'] * (digit * digit∗)

def exponent : Language Char := 1 + oneOf ['e', 'E'] * sign * (digit * digit∗)

def decimal : Language Char := mantissa * exponent

def names : Language Char :=
  anyCase ['i', 'n', 'f'] + anyCase ['i', 'n', 'f', 'i', 'n', 'i', 't', 'y'] +
    anyCase ['n', 'a', 'n']

def numeral : Language Char := sign * (names + decimal)

section Digits

variable {s a b x : List Char} {c : Char}

theorem mem_oneOf {cs : List Char} : s ∈ oneOf cs ↔ ∃ c ∈ cs, s = [c] := Iff.rfl

theorem mem_digits : s ∈ digit∗ ↔ ∀ c ∈ s, c.isDigit = true := by
  rw [Language.mem_kstar]
  constructor
  · rintro ⟨l, rfl, hl⟩ c hc
    obtain ⟨t, ht, hc⟩ := List.mem_flatten.mp hc
    obtain ⟨d, hd, rfl⟩ := hl t ht
    rw [List.mem_singleton.mp hc, hd]
  · intro h
    refine ⟨s.map fun c => [c], ?_, ?_⟩
    · induction s with
      | nil => rfl
      | cons c s ih =>
        rw [List.map_cons, List.flatten_cons, ← ih fun d hd => h d (List.mem_cons_of_mem c hd)]
        rfl
    · intro t ht
      obtain ⟨c, hc, rfl⟩ := List.mem_map.mp ht
      exact ⟨c, h c hc, rfl⟩

theorem mem_digits1 : s ∈ digit * digit∗ ↔ s ≠ [] ∧ ∀ c ∈ s, c.isDigit = true := by
  rw [Language.mem_mul]
  constructor
  · rintro ⟨_, ⟨c, hc, rfl⟩, t, ht, rfl⟩
    rw [mem_digits] at ht
    exact ⟨by simp, by simpa using ⟨hc, ht⟩⟩
  · rintro ⟨hne, h⟩
    obtain ⟨c, t, rfl⟩ := List.exists_cons_of_ne_nil hne
    obtain ⟨hc, ht⟩ := List.forall_mem_cons.mp h
    exact ⟨[c], ⟨c, hc, rfl⟩, t, mem_digits.mpr ht, rfl⟩

theorem ofDigits_append (a b : List Char) :
    Decimal.ofDigits (a ++ b) = Decimal.ofDigits a * 10 ^ b.length + Decimal.ofDigits b := by
  rw [Decimal.ofDigits, Nat.ofDigitChars_append, Nat.ofDigitChars_eq_ofDigitChars_zero,
    Nat.mul_comm]
  rfl

theorem splitDigits_append_of {x : List Char} (ha : ∀ c ∈ a, c.isDigit = true)
    (hx : splitDigits x = ([], x)) : splitDigits (a ++ x) = (a, x) := by
  obtain ⟨htake, hdrop⟩ := Prod.mk.inj hx
  rw [splitDigits, List.takeWhile_append_of_pos ha, List.dropWhile_append_of_pos ha, htake, hdrop,
    List.append_nil]

theorem splitDigits_cons_of (h : c.isDigit = false) (x : List Char) :
    splitDigits (c :: x) = ([], c :: x) := by
  simp [splitDigits, h]

end Digits

section Signs

variable {s : List Char} {L : Language Char} {negative : Bool}

/-- The signs of a number with the sign bit set, or without. -/
def signOf : Bool → Language Char
  | true => oneOf ['-']
  | false => 1 + oneOf ['+']

theorem splitSign_of_ne {c : Char} (hm : c ≠ '-') (hp : c ≠ '+') (s : List Char) :
    splitSign (c :: s) = (false, c :: s) := by
  unfold splitSign
  split
  · rename_i h
    exact absurd (List.cons.inj h).1 hm
  · rename_i h
    exact absurd (List.cons.inj h).1 hp
  · rfl

theorem mem_signOf_mul (hL : ∀ t ∈ L, splitSign t = (false, t)) :
    s ∈ signOf negative * L ↔ (splitSign s).1 = negative ∧ (splitSign s).2 ∈ L := by
  rw [Language.mem_mul]
  constructor
  · rintro ⟨a, ha, b, hb, rfl⟩
    cases negative with
    | true =>
      obtain ⟨c, hc, rfl⟩ := ha
      rw [List.mem_singleton.mp hc]
      exact ⟨rfl, hb⟩
    | false =>
      rcases ha with rfl | ⟨c, hc, rfl⟩
      · rw [List.nil_append, hL b hb]
        exact ⟨rfl, hb⟩
      · rw [List.mem_singleton.mp hc]
        exact ⟨rfl, hb⟩
  · rintro ⟨hneg, hb⟩
    unfold splitSign at hneg hb
    split at hneg
    · rename_i t
      subst hneg
      exact ⟨['-'], ⟨'-', List.mem_singleton_self _, rfl⟩, t, hb, rfl⟩
    · rename_i t
      subst hneg
      exact ⟨['+'], Or.inr ⟨'+', List.mem_singleton_self _, rfl⟩, t, hb, rfl⟩
    · subst hneg
      exact ⟨[], Or.inl rfl, s, by simpa using hb, rfl⟩

theorem sign_eq : sign = signOf false + signOf true := by
  ext t
  simp only [sign, signOf, Language.mem_add, Language.mem_one, mem_oneOf, List.mem_cons,
    List.not_mem_nil, or_false]
  grind

theorem mem_sign_mul (hL : ∀ t ∈ L, splitSign t = (false, t)) :
    s ∈ sign * L ↔ (splitSign s).2 ∈ L := by
  rw [sign_eq, add_mul, Language.mem_add, mem_signOf_mul hL, mem_signOf_mul hL]
  cases (splitSign s).1 <;> simp

theorem splitSign_of_isDigit {c : Char} (h : c.isDigit = true) (s : List Char) :
    splitSign (c :: s) = (false, c :: s) := by
  refine splitSign_of_ne ?_ ?_ s
  · rintro rfl
    exact absurd h (by decide)
  · rintro rfl
    exact absurd h (by decide)

end Signs

section Parts

variable {a b s x : List Char} {e : Int}

theorem exponent?_cons_iff {c : Char} :
    (∃ e, exponent? (c :: s) = some e) ↔
      (c = 'e' ∨ c = 'E') ∧ (splitSign s).2 ≠ [] ∧ ∀ d ∈ (splitSign s).2, d.isDigit = true := by
  simp only [exponent?, List.all_eq_true]
  split
  · rename_i h
    exact ⟨fun _ => h, fun _ => ⟨_, rfl⟩⟩
  · rename_i h
    exact ⟨fun he => absurd he.choose_spec nofun, fun hs => absurd hs h⟩

theorem mem_exponent_iff : x ∈ exponent ↔ ∃ e, exponent? x = some e := by
  have hdigits : ∀ t ∈ digit * digit∗, splitSign t = (false, t) := by
    intro t ht
    obtain ⟨hne, ht⟩ := mem_digits1.mp ht
    obtain ⟨c, t, rfl⟩ := List.exists_cons_of_ne_nil hne
    exact splitSign_of_isDigit (ht c List.mem_cons_self) t
  rw [exponent, Language.mem_add, Language.mem_one, mul_assoc, Language.mem_mul]
  constructor
  · rintro (rfl | ⟨_, ⟨c, hc, rfl⟩, t, ht, rfl⟩)
    · exact ⟨0, rfl⟩
    · rw [mem_sign_mul hdigits, mem_digits1] at ht
      exact exponent?_cons_iff.mpr ⟨by simpa using hc, ht⟩
  · intro h
    cases x with
    | nil => exact Or.inl rfl
    | cons c t =>
      obtain ⟨hc, ht⟩ := exponent?_cons_iff.mp h
      refine Or.inr ⟨[c], ⟨c, by simpa using hc, rfl⟩, t, ?_, rfl⟩
      rw [mem_sign_mul hdigits, mem_digits1]
      exact ht

theorem splitDigits_of_exponent? (h : exponent? x = some e) :
    splitDigits x = ([], x) ∧ splitFraction x = ([], x) := by
  cases x with
  | nil => exact ⟨rfl, rfl⟩
  | cons c t =>
    obtain ⟨hc, _⟩ := exponent?_cons_iff.mp ⟨e, h⟩
    rcases hc with rfl | rfl
    · exact ⟨splitDigits_cons_of (by decide) t, rfl⟩
    · exact ⟨splitDigits_cons_of (by decide) t, rfl⟩

theorem decimal?_whole (ha : ∀ c ∈ a, c.isDigit = true) (hne : a ≠ [])
    (hx : exponent? x = some e) : decimal? (a ++ x) = some ⟨Decimal.ofDigits a, e⟩ := by
  obtain ⟨hdigits, hfraction⟩ := splitDigits_of_exponent? hx
  simp [decimal?, splitDigits_append_of ha hdigits, hfraction, hne, hx]

theorem decimal?_point (ha : ∀ c ∈ a, c.isDigit = true) (hb : ∀ c ∈ b, c.isDigit = true)
    (hne : a ++ b ≠ []) (hx : exponent? x = some e) :
    decimal? (a ++ '.' :: (b ++ x)) = some ⟨Decimal.ofDigits (a ++ b), e - b.length⟩ := by
  obtain ⟨hdigits, _⟩ := splitDigits_of_exponent? hx
  have hpoint := splitDigits_cons_of (c := '.') (by decide) (b ++ x)
  have hfraction : splitFraction ('.' :: (b ++ x)) = (b, x) := splitDigits_append_of hb hdigits
  simp only [decimal?, splitDigits_append_of ha hpoint, hfraction, if_neg hne, hx, Option.map_some]

theorem splitFraction_cases (t : List Char) :
    (∃ u, t = '.' :: u) ∨ splitFraction t = ([], t) := by
  unfold splitFraction
  split
  · exact Or.inl ⟨_, rfl⟩
  · exact Or.inr rfl

theorem decimal?_cons_of_toLower {c : Char} (h : 97 ≤ c.toLower.toNat) (s : List Char) :
    decimal? (c :: s) = none := by
  have hlower : c.isDigit = true ∨ c = '.' → c.toLower = c ∧ c.toNat < 97 := by
    rintro (hd | rfl)
    · have hn := Char.isDigit_iff_toNat.mp hd
      change 48 ≤ c.toNat ∧ c.toNat ≤ 57 at hn
      rcases Text.toLower_cases c with hc | ⟨hc, -, -⟩
      · exact ⟨hc, by omega⟩
      · omega
    · decide
  have hno : ¬(c.isDigit = true ∨ c = '.') := by
    intro hc
    obtain ⟨heq, hlt⟩ := hlower hc
    rw [heq] at h
    omega
  rw [not_or, Bool.not_eq_true] at hno
  have hpoint : splitFraction (c :: s) = ([], c :: s) := by
    rcases splitFraction_cases (c :: s) with ⟨u, hu⟩ | hs
    · exact absurd (List.cons.inj hu).1 hno.2
    · exact hs
  simp [decimal?, splitDigits_cons_of hno.1, hpoint]

/-- What is spelled with letters alone is no decimal. -/
theorem decimal?_of_mem_anyCase {name : List Char} (hname : ∀ c ∈ name, 97 ≤ c.toNat)
    (h : s ∈ anyCase name) : decimal? s = none := by
  cases s with
  | nil => rfl
  | cons c s =>
    have hc : c.toLower ∈ name := h ▸ List.mem_cons_self
    exact decimal?_cons_of_toLower (hname _ hc) s

theorem parts_of_decimal? {d : Decimal} (h : decimal? s = some d) :
    (∃ a x, s = a ++ x ∧ a ≠ [] ∧ (∀ c ∈ a, c.isDigit = true) ∧ ∃ e, exponent? x = some e) ∨
    ∃ a b x, s = a ++ '.' :: (b ++ x) ∧ a ++ b ≠ [] ∧ (∀ c ∈ a, c.isDigit = true) ∧
      (∀ c ∈ b, c.isDigit = true) ∧ ∃ e, exponent? x = some e := by
  have hs := splitDigits_append s
  have ha : ∀ c ∈ (splitDigits s).1, c.isDigit = true := fun c => isDigit_of_mem_splitDigits
  simp only [decimal?] at h
  split at h
  · cases h
  · rename_i hne
    obtain ⟨e, he, -⟩ := Option.map_eq_some_iff.mp h
    generalize (splitDigits s).1 = a at *
    generalize (splitDigits s).2 = t at *
    rcases splitFraction_cases t with ⟨u, rfl⟩ | ht
    · refine Or.inr ⟨a, (splitDigits u).1, (splitDigits u).2, ?_, hne, ha, ?_, e, he⟩
      · rw [splitDigits_append, hs]
      · exact fun c => isDigit_of_mem_splitDigits
    · rw [ht] at hne he
      exact Or.inl ⟨a, t, hs.symm, by simpa using hne, ha, e, he⟩

theorem mem_mantissa_iff :
    s ∈ mantissa ↔ (s ≠ [] ∧ ∀ c ∈ s, c.isDigit = true) ∨
      ∃ a b, s = a ++ '.' :: b ∧ a ++ b ≠ [] ∧ (∀ c ∈ a, c.isDigit = true) ∧
        ∀ c ∈ b, c.isDigit = true := by
  simp only [mantissa, mul_assoc (digit * digit∗), mul_assoc digit∗, Language.mem_add]
  constructor
  · rintro ((h | h) | h)
    · exact Or.inl (mem_digits1.mp h)
    · obtain ⟨a, ha, _, ⟨_, ⟨c, hc, rfl⟩, b, hb, rfl⟩, rfl⟩ := h
      obtain ⟨hne, ha⟩ := mem_digits1.mp ha
      rw [List.mem_singleton.mp hc]
      exact Or.inr ⟨a, b, rfl, by simp [hne], ha, mem_digits.mp hb⟩
    · obtain ⟨a, ha, _, ⟨_, ⟨c, hc, rfl⟩, b, hb, rfl⟩, rfl⟩ := h
      obtain ⟨hne, hb⟩ := mem_digits1.mp hb
      rw [List.mem_singleton.mp hc]
      exact Or.inr ⟨a, b, rfl, by simp [hne], mem_digits.mp ha, hb⟩
  · rintro (h | ⟨a, b, rfl, hne, ha, hb⟩)
    · exact Or.inl (Or.inl (mem_digits1.mpr h))
    · have hpoint : ['.'] ∈ oneOf ['.'] := ⟨'.', List.mem_singleton_self _, rfl⟩
      -- without a digit in front of the point there is one behind it
      by_cases hnil : a = []
      · have hb1 : b ≠ [] := by simpa [hnil] using hne
        exact Or.inr ⟨a, mem_digits.mpr ha, _,
          ⟨['.'], hpoint, b, mem_digits1.mpr ⟨hb1, hb⟩, rfl⟩, rfl⟩
      · exact Or.inl (Or.inr ⟨a, mem_digits1.mpr ⟨hnil, ha⟩, _,
          ⟨['.'], hpoint, b, mem_digits.mpr hb, rfl⟩, rfl⟩)

theorem mem_decimal_iff : s ∈ decimal ↔ ∃ d, decimal? s = some d := by
  rw [decimal, Language.mem_mul]
  constructor
  · rintro ⟨m, hm, x, hx, rfl⟩
    obtain ⟨e, he⟩ := mem_exponent_iff.mp hx
    rcases mem_mantissa_iff.mp hm with ⟨hne, ha⟩ | ⟨a, b, rfl, hne, ha, hb⟩
    · exact ⟨_, decimal?_whole ha hne he⟩
    · rw [List.append_assoc]
      exact ⟨_, decimal?_point ha hb hne he⟩
  · rintro ⟨d, hd⟩
    rcases parts_of_decimal? hd with ⟨a, x, rfl, hne, ha, hx⟩ | ⟨a, b, x, rfl, hne, ha, hb, hx⟩
    · exact ⟨a, mem_mantissa_iff.mpr (Or.inl ⟨hne, ha⟩), x, mem_exponent_iff.mpr hx, rfl⟩
    · exact ⟨a ++ '.' :: b, mem_mantissa_iff.mpr (Or.inr ⟨a, b, rfl, hne, ha, hb⟩), x,
        mem_exponent_iff.mpr hx, by simp⟩

theorem splitSign_of_mem_decimal (h : s ∈ decimal) : splitSign s = (false, s) := by
  obtain ⟨d, hd⟩ := mem_decimal_iff.mp h
  rcases parts_of_decimal? hd with ⟨a, x, rfl, hne, ha, -⟩ | ⟨a, b, x, rfl, -, ha, -⟩
  · obtain ⟨c, a, rfl⟩ := List.exists_cons_of_ne_nil hne
    exact splitSign_of_isDigit (ha c List.mem_cons_self) _
  · cases a with
    | nil => rfl
    | cons c a => exact splitSign_of_isDigit (ha c List.mem_cons_self) _

end Parts

section Names

variable {s t : List Char}

theorem splitSign_of_map_toLower (h : s.map Char.toLower = t) (ht : splitSign t = (false, t)) :
    splitSign s = (false, s) := by
  have hsign := splitSign_map_toLower s
  rw [h, ht] at hsign
  obtain ⟨hneg, hbare⟩ := Prod.mk.inj hsign
  have hlength := congrArg List.length (h.trans hbare)
  rw [List.length_map, List.length_map] at hlength
  unfold splitSign at hneg hlength ⊢
  split at hneg
  · cases hneg
  · simp at hlength
  · rfl

theorem mem_names_iff : s ∈ names ↔ ∃ m, named? (s.map Char.toLower) = some m := by
  constructor
  · rintro ((h | h) | h)
    · exact ⟨.infinity, congrArg named? h⟩
    · exact ⟨.infinity, congrArg named? h⟩
    · exact ⟨.nan, congrArg named? h⟩
  · rintro ⟨m, h⟩
    unfold named? at h
    split at h
    · rename_i hs
      exact Or.inl (Or.inl hs)
    · rename_i hs
      exact Or.inl (Or.inr hs)
    · rename_i hs
      exact Or.inr hs
    · cases h

theorem splitSign_of_mem_names (h : s ∈ names) : splitSign s = (false, s) := by
  rcases h with (h | h) | h
  · exact splitSign_of_map_toLower h rfl
  · exact splitSign_of_map_toLower h rfl
  · exact splitSign_of_map_toLower h rfl

theorem decimal?_of_mem_names (h : s ∈ names) : decimal? s = none := by
  rcases h with (h | h) | h
  · exact decimal?_of_mem_anyCase (by simp) h
  · exact decimal?_of_mem_anyCase (by simp) h
  · exact decimal?_of_mem_anyCase (by simp) h

theorem mem_names_add_decimal_iff : s ∈ names + decimal ↔ ∃ m, magnitude? s = some m := by
  rw [Language.mem_add, mem_names_iff, mem_decimal_iff, magnitude?]
  cases decimal? s <;> simp

theorem read_eq_ok_iff {n : Numeral} :
    read s = .ok n ↔
      (splitSign s).1 = n.negative ∧ magnitude? (splitSign s).2 = some n.magnitude := by
  obtain ⟨negative, m⟩ := n
  rw [read]
  split
  · rename_i hs
    subst hs
    exact ⟨nofun, fun h => nomatch h.2⟩
  · simp only
    split
    · rename_i m' hm
      simp [hm]
    · rename_i hm
      simp [hm]

theorem read_eq_error_iff {defect : Defect} :
    read s = .error defect ↔
      magnitude? (splitSign s).2 = none ∧ defect = if s = [] then .empty else .malformed := by
  rw [read]
  split
  · rename_i hs
    subst hs
    exact ⟨fun h => ⟨rfl, by cases h; rfl⟩, fun h => h.2 ▸ rfl⟩
  · simp only
    split
    · rename_i m' hm
      simp [hm]
    · rename_i hm
      simp [hm, eq_comm]

theorem mem_numeral_iff : s ∈ numeral ↔ ∃ n, read s = .ok n := by
  have hunsigned : ∀ t ∈ names + decimal, splitSign t = (false, t) := by
    rintro t (ht | ht)
    · exact splitSign_of_mem_names ht
    · exact splitSign_of_mem_decimal ht
  rw [numeral, mem_sign_mul hunsigned, mem_names_add_decimal_iff]
  constructor
  · rintro ⟨m, hm⟩
    exact ⟨⟨_, m⟩, read_eq_ok_iff.mpr ⟨rfl, hm⟩⟩
  · rintro ⟨n, hn⟩
    exact ⟨_, (read_eq_ok_iff.mp hn).2⟩

end Names

end ReversePolish.Numeral
