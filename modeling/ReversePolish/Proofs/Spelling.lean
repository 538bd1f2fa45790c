import ReversePolish.Proofs.Classification
import ReversePolish.Proofs.Concatenation
import ReversePolish.Proofs.ExactValue

/-!
# Numbers as they are written

A number that is no name is written as a sign, digits around a point and an exponent, of which any
may be missing but one digit (`exists_text_iff`). So written it has an exact value, and what is
pushed for it is that value rounded: the nearest float, of two the one with the even significand,
and infinity or zero where the value is too far out. Numbers of one sign and value are the same
however they are written (`float_congr`).
-/

namespace ReversePolish.Numeral

inductive Mark
  | none
  | plus
  | minus

namespace Mark

def chars : Mark → List Char
  | none => []
  | plus => ['+']
  | minus => ['-']

def negative : Mark → Bool
  | none | plus => false
  | minus => true

theorem splitSign_append (mark : Mark) {s : List Char} (h : splitSign s = (false, s)) :
    splitSign (mark.chars ++ s) = (mark.negative, s) := by
  cases mark with
  | none => exact h
  | plus => rfl
  | minus => rfl

theorem exists_of_splitSign (s : List Char) :
    ∃ mark : Mark, mark.chars ++ (splitSign s).2 = s := by
  unfold splitSign
  split
  · exact ⟨minus, rfl⟩
  · exact ⟨plus, rfl⟩
  · exact ⟨none, rfl⟩

end Mark

structure Power where
  letter : Char
  mark : Mark
  digits : List Char
  isLetter : letter = 'e' ∨ letter = 'E'
  ne_nil : digits ≠ []
  isDigit : ∀ c ∈ digits, c.isDigit = true

namespace Power

def chars (p : Power) : List Char := p.letter :: (p.mark.chars ++ p.digits)

def value (p : Power) : ℤ :=
  if p.mark.negative then -(Decimal.ofDigits p.digits : ℤ) else Decimal.ofDigits p.digits

theorem splitSign_digits (p : Power) : splitSign p.digits = (false, p.digits) := by
  obtain ⟨c, s, hs⟩ := List.exists_cons_of_ne_nil p.ne_nil
  have hc : c.isDigit = true := p.isDigit c (hs ▸ List.mem_cons_self)
  rw [hs]
  exact splitSign_of_isDigit hc s

theorem exponent?_chars (p : Power) : exponent? p.chars = some p.value := by
  have hall : p.digits.all Char.isDigit = true := List.all_eq_true.mpr p.isDigit
  rw [chars, exponent?, p.mark.splitSign_append p.splitSign_digits]
  exact if_pos ⟨p.isLetter, p.ne_nil, hall⟩

theorem exists_of_exponent? {c : Char} {s : List Char} {e : ℤ}
    (h : exponent? (c :: s) = some e) : ∃ p : Power, p.chars = c :: s := by
  obtain ⟨hc, hne, hdigit⟩ := exponent?_cons_iff.mp ⟨e, h⟩
  obtain ⟨mark, hs⟩ := Mark.exists_of_splitSign s
  exact ⟨⟨c, mark, (splitSign s).2, hc, hne, hdigit⟩, congrArg (c :: ·) hs⟩

end Power

structure Spelling where
  mark : Mark
  whole : List Char
  fraction? : Option (List Char)
  power? : Option Power
  ne_nil : whole ++ fraction?.getD [] ≠ []
  isDigit : ∀ c ∈ whole ++ fraction?.getD [], c.isDigit = true

namespace Spelling

open Binary64

variable (sp : Spelling)

def fraction : List Char := sp.fraction?.getD []

def exponent : ℤ := (sp.power?.map Power.value).getD 0

def bare : List Char :=
  sp.whole ++ ((sp.fraction?.map ('.' :: ·)).getD [] ++ (sp.power?.map Power.chars).getD [])

def text : String := String.ofList (sp.mark.chars ++ sp.bare)

/-- The number that the digits and the exponent denote, without the sign. -/
def value : ℚ :=
  (Decimal.ofDigits sp.whole + Decimal.ofDigits sp.fraction / 10 ^ sp.fraction.length) *
    10 ^ sp.exponent

/-- The same number as the digits without the point. -/
def decimal : Decimal :=
  ⟨Decimal.ofDigits (sp.whole ++ sp.fraction), sp.exponent - sp.fraction.length⟩

theorem value_decimal : sp.decimal.value = sp.value := by
  have hten : (10 : ℚ) ≠ 0 := by norm_num
  rw [Decimal.value, decimal, value, ofDigits_append, zpow_sub₀ hten, zpow_natCast]
  push_cast
  field_simp

theorem exponent?_power : exponent? ((sp.power?.map Power.chars).getD []) = some sp.exponent := by
  rw [exponent]
  cases sp.power? with
  | none => rfl
  | some p => exact p.exponent?_chars

theorem decimal?_bare : decimal? sp.bare = some sp.decimal := by
  have hx := sp.exponent?_power
  obtain ⟨hwhole, hfraction⟩ := List.forall_mem_append.mp sp.isDigit
  have hne := sp.ne_nil
  rw [bare, decimal, fraction]
  cases hf : sp.fraction? with
  | none =>
    rw [hf] at hne hfraction
    simpa using decimal?_whole hwhole (by simpa using hne) hx
  | some f =>
    rw [hf] at hne hfraction
    exact decimal?_point hwhole hfraction hne hx

theorem splitSign_bare : splitSign sp.bare = (false, sp.bare) :=
  splitSign_of_mem_decimal (mem_decimal_iff.mpr ⟨sp.decimal, sp.decimal?_bare⟩)

theorem splitSign_text : splitSign sp.text.toList = (sp.mark.negative, sp.bare) := by
  rw [text, String.toList_ofList]
  exact sp.mark.splitSign_append sp.splitSign_bare

theorem read_text : read sp.text.toList = .ok ⟨sp.mark.negative, .decimal sp.decimal⟩ := by
  rw [read_eq_ok_iff, splitSign_text, magnitude?, decimal?_bare]
  exact ⟨rfl, rfl⟩

theorem exists_of_decimal? {s : List Char} {d : Decimal} (mark : Mark) (h : decimal? s = some d) :
    ∃ sp : Spelling, sp.text = String.ofList (mark.chars ++ s) := by
  have hpower : ∀ x e, exponent? x = some e →
      ∃ p? : Option Power, (p?.map Power.chars).getD [] = x := by
    intro x e hx
    cases x with
    | nil => exact ⟨none, rfl⟩
    | cons c x =>
      obtain ⟨p, hp⟩ := Power.exists_of_exponent? hx
      exact ⟨some p, hp⟩
  rcases parts_of_decimal? h with
    ⟨a, x, rfl, hne, ha, e, hx⟩ | ⟨a, b, x, rfl, hne, ha, hb, e, hx⟩
  · obtain ⟨p?, rfl⟩ := hpower x e hx
    exact ⟨⟨mark, a, none, p?, by simpa using hne, by simpa using ha⟩, rfl⟩
  · obtain ⟨p?, rfl⟩ := hpower x e hx
    exact ⟨⟨mark, a, some b, p?, hne, List.forall_mem_append.mpr ⟨ha, hb⟩⟩, rfl⟩

/-- The float of the sign whose code the value rounds to. -/
def float : Float := ofCode sp.mark.negative (ofDecimal sp.decimal)

/-- A text is read as the sign, the digits and the exponent say, and as no constant. -/
theorem classify_text : Token.classify sp.text = .ok (.number sp.float) := by
  refine Token.classify_eq_number_iff.mpr ⟨?_, _, sp.read_text, rfl⟩
  rw [Token.constant?_eq_none_iff]
  intro name negate hmem
  cases (Constant.eq_infinity_of_read hmem sp.read_text).2

theorem roundsTo_code : RoundsTo (inUnits sp.value) (code sp.float) := by
  have h := roundsTo_ofDecimal sp.decimal
  rw [float, code_ofCode _ h.le_infinity, ← value_decimal]
  exact h

theorem negative_float : Binary64.negative sp.float = sp.mark.negative :=
  negative_ofCode _ (roundsTo_ofDecimal sp.decimal).le_infinity

theorem float_eq_ofCode_iff {c : ℕ} (hc : c ≤ infinityCode) :
    sp.float = ofCode sp.mark.negative c ↔ code sp.float = c := by
  constructor
  · intro h
    rw [h, code_ofCode _ hc]
  · intro h
    rw [← h, ← negative_float, ofCode_code]

theorem float_eq_infinity_iff :
    sp.float = (if sp.mark.negative then -infinity else infinity) ↔
      2 ^ 1024 - 2 ^ 970 ≤ sp.value := by
  have hinfinity : (if sp.mark.negative then -infinity else infinity) =
      ofCode sp.mark.negative infinityCode := by
    cases sp.mark <;> rfl
  rw [hinfinity, sp.float_eq_ofCode_iff le_rfl, sp.roundsTo_code.eq_infinityCode_iff]

theorem float_eq_zero_iff :
    sp.float = (if sp.mark.negative then -zero else zero) ↔ sp.value ≤ 2 ^ (-1075 : ℤ) := by
  have hzero : (if sp.mark.negative then -zero else zero) = ofCode sp.mark.negative 0 := by
    cases sp.mark <;> rfl
  rw [hzero, sp.float_eq_ofCode_iff (Nat.zero_le _), sp.roundsTo_code.eq_zero_iff]

variable {sp} {sp' : Spelling}

theorem float_congr (hs : sp.mark.negative = sp'.mark.negative) (hv : sp.value = sp'.value) :
    sp.float = sp'.float := by
  have hcode : code sp.float = code sp'.float :=
    roundsTo_unique sp.roundsTo_code (hv ▸ sp'.roundsTo_code)
  rw [← ofCode_code sp.float, ← ofCode_code sp'.float, negative_float, negative_float, hs, hcode]

theorem absolute_float_mono (hv : sp.value ≤ sp'.value) :
    absolute sp.float ≤ absolute sp'.float :=
  absolute_le_of_code_le (sp.roundsTo_code.mono sp'.roundsTo_code (inUnits_le_inUnits.mpr hv))

/-- The numbers that are no names are those that can be written so. -/
theorem exists_text_iff {w : String} :
    (∃ sp : Spelling, sp.text = w) ↔
      (∃ v, Token.classify w = .ok (.number v)) ∧ w.toList ∉ sign * names := by
  rw [mem_sign_mul fun _ => splitSign_of_mem_names]
  constructor
  · rintro ⟨sp, rfl⟩
    refine ⟨⟨_, sp.classify_text⟩, fun h => ?_⟩
    rw [splitSign_text] at h
    have hnone := decimal?_of_mem_names h
    rw [decimal?_bare] at hnone
    cases hnone
  · rintro ⟨⟨v, hv⟩, hno⟩
    obtain ⟨-, n, hn, -⟩ := Token.classify_eq_number_iff.mp hv
    obtain ⟨-, hm⟩ := read_eq_ok_iff.mp hn
    rw [magnitude?] at hm
    cases hd : decimal? (splitSign w.toList).2 with
    | none =>
      rw [hd] at hm
      exact absurd (mem_names_iff.mpr ⟨_, hm⟩) hno
    | some d =>
      obtain ⟨mark, hmark⟩ := Mark.exists_of_splitSign w.toList
      obtain ⟨sp, hsp⟩ := exists_of_decimal? mark hd
      exact ⟨sp, by rw [hsp, hmark, String.ofList_toList]⟩

end Spelling

end ReversePolish.Numeral

namespace ReversePolish.Machine

open Binary64
open Numeral (Spelling)

theorem eval_of_classify_number {w : String} {v : Float}
    (h : Token.classify w = .ok (.number v)) (m : Machine) :
    m.eval w =
      ⟨(m.push v).machine, [.push v], .proceed v,
        [.token w (.number v), .pushed v (m.depth + 1)]⟩ := by
  obtain ⟨hne, hsolid⟩ := Token.isWord_of_classify h
  have hw : w ∉ terminators := by
    intro hmem
    rw [classify_eq_terminate_iff.mpr hmem] at h
    cases h
  rw [eval_eq_run, wordsOf_of_word hne hsolid, run_singleton hw, step_of_effect h rfl]
  rfl

/-- The words that are numbers and no names are those that can be spelled with digits, and each of
them pushes the float nearest to what it denotes. -/
theorem eval_spelling :
    (∀ w, (∃ v, Token.classify w = .ok (.number v)) ∧ w.toList ∉ Numeral.sign * Numeral.names ↔
      ∃ sp : Spelling, sp.text = w) ∧
    ∀ sp : Spelling, ∃ v,
      Token.classify sp.text = .ok (.number v) ∧
      (∀ m : Machine, (m.eval sp.text).machine.operands = m.operands ++ [v] ∧
        (m.eval sp.text).trace = [.push v] ∧ (m.eval sp.text).outcome = .proceed v) ∧
      isNaN v = false ∧ negative v = sp.mark.negative ∧
      (∀ (a b : ℚ) (y : Float), absolute v = a → absolute y = b →
        |a - sp.value| ≤ |b - sp.value| ∧
          (|a - sp.value| = |b - sp.value| → b = a ∨ significand v % 2 = 0)) ∧
      (v = (if sp.mark.negative then -infinity else infinity) ↔ 2 ^ 1024 - 2 ^ 970 ≤ sp.value) ∧
      (v = (if sp.mark.negative then -zero else zero) ↔ sp.value ≤ 2 ^ (-1075 : ℤ)) ∧
      ∀ (sp' : Spelling) (v' : Float), Token.classify sp'.text = .ok (.number v') →
        sp.mark.negative = sp'.mark.negative →
        (sp.value = sp'.value → v = v') ∧
          (sp.value ≤ sp'.value → absolute v ≤ absolute v') := by
  refine ⟨fun w => Spelling.exists_text_iff.symm, fun sp => ?_⟩
  refine ⟨sp.float, sp.classify_text, ?_, ?_, sp.negative_float, ?_, sp.float_eq_infinity_iff,
    sp.float_eq_zero_iff, ?_⟩
  · intro m
    rw [eval_of_classify_number sp.classify_text]
    exact ⟨operands_push m sp.float, rfl, rfl⟩
  · exact decide_eq_false (not_lt.mpr sp.roundsTo_code.le_infinity)
  · intro a b y ha hb
    exact abs_sub_le_of_roundsTo sp.roundsTo_code ha hb
  · intro sp' v' hv' hs
    rw [sp'.classify_text] at hv'
    cases hv'
    exact ⟨Spelling.float_congr hs, Spelling.absolute_float_mono⟩

end ReversePolish.Machine
