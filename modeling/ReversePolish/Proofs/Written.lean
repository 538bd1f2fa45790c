import ReversePolish.Proofs.Shortest
import ReversePolish.Proofs.Spelling

/-!
# Written floats read back

In every layout a float is written with the digits of the decimal that was laid out, zeros before
and behind them, the point where it belongs and an exponent or none (`exists_spelling_decimal`). The
shortest decimal of a float rounds to it, so its text is a numeral for that very float and a word
that means it (`classify_text`). It holds digits, points, signs and a few letters, and nothing else
(`isWritten_of_mem_chars`).
-/

namespace ReversePolish

open Numeral (Mark Power Spelling)

section Digits

variable {n : ℕ}

abbrev digitsOf (n : ℕ) : List Char := Nat.toDigits 10 n

abbrev zeros (k : ℕ) : List Char := List.replicate k '0'

theorem isDigit_of_mem_digitsOf {c : Char} (h : c ∈ digitsOf n) : c.isDigit = true :=
  Nat.isDigit_of_mem_toDigits (by decide) (by decide) h

theorem isDigit_of_mem_zeros {k : ℕ} {c : Char} (h : c ∈ zeros k) : c.isDigit = true := by
  rw [List.eq_of_mem_replicate h]
  decide

theorem ofDigits_digitsOf (n : ℕ) : Decimal.ofDigits (digitsOf n) = n :=
  Nat.ofDigitChars_ten_toDigits

theorem ofDigits_zeros (k : ℕ) : Decimal.ofDigits (zeros k) = 0 := by
  rw [Decimal.ofDigits, Nat.ofDigitChars_replicate_zero, Nat.mul_zero]

/-- Zeros before the digits count nothing, and each one behind them counts tenfold. -/
theorem ofDigits_zeros_append (a b : ℕ) (ds : List Char) :
    Decimal.ofDigits (zeros a ++ ds ++ zeros b) = Decimal.ofDigits ds * 10 ^ b := by
  rw [Numeral.ofDigits_append, Numeral.ofDigits_append, ofDigits_zeros, ofDigits_zeros,
    Nat.zero_mul, Nat.zero_add, Nat.add_zero, List.length_replicate]

theorem ofDigits_lt {ds : List Char} (h : ∀ c ∈ ds, c.isDigit = true) :
    Decimal.ofDigits ds < 10 ^ ds.length := by
  induction ds with
  | nil => decide
  | cons c ds ih =>
    obtain ⟨hc, hds⟩ := List.forall_mem_cons.mp h
    have hlead : Decimal.ofDigits [c] ≤ 9 := by
      have hnine : c.toNat ≤ 57 := (Char.isDigit_iff_toNat.mp hc).2
      have hzero : '0'.toNat = 48 := rfl
      rw [Decimal.ofDigits, Nat.ofDigitChars_cons, Nat.ofDigitChars_nil, hzero]
      omega
    calc Decimal.ofDigits ([c] ++ ds)
        = Decimal.ofDigits [c] * 10 ^ ds.length + Decimal.ofDigits ds :=
          Numeral.ofDigits_append [c] ds
      _ < 9 * 10 ^ ds.length + 10 ^ ds.length :=
        Nat.add_lt_add_of_le_of_lt (Nat.mul_le_mul_right _ hlead) (ih hds)
      _ = 10 ^ (c :: ds).length := by rw [List.length_cons, pow_succ]; ring

end Digits

namespace Numeral

def Power.ofInt : ℤ → Power
  | .ofNat n => ⟨'e', .none, digitsOf n, Or.inl rfl, Nat.toDigits_ne_nil,
      fun _ => isDigit_of_mem_digitsOf⟩
  | .negSucc n => ⟨'e', .minus, digitsOf (n + 1), Or.inl rfl, Nat.toDigits_ne_nil,
      fun _ => isDigit_of_mem_digitsOf⟩

theorem Power.chars_ofInt (e : ℤ) : (ofInt e).chars = 'e' :: Layout.int e := by
  cases e <;> rfl

theorem Power.value_ofInt (e : ℤ) : (ofInt e).value = e := by
  cases e with
  | ofNat n => exact congrArg Int.ofNat (ofDigits_digitsOf n)
  | negSucc n => exact congrArg (fun k : ℕ => -(k : ℤ)) (ofDigits_digitsOf (n + 1))

namespace Spelling

/-- The digits are those of a decimal between zeros, and stand where the decimal has them. -/
def Spells (sp : Spelling) (d : Decimal) : Prop :=
  ∃ a b : ℕ, sp.whole ++ sp.fraction = zeros a ++ digitsOf d.digits ++ zeros b ∧
    sp.exponent + b = d.exponent + sp.fraction.length

variable {sp : Spelling} {d : Decimal} {a b : ℕ} {ds : List Char}

/-- The zeros before the digits and behind them can be left out of the decimal. -/
theorem value_of_digits (h : sp.whole ++ sp.fraction = zeros a ++ ds ++ zeros b) :
    sp.value = Decimal.value ⟨Decimal.ofDigits ds, b + (sp.exponent - sp.fraction.length)⟩ := by
  have hten : (10 : ℚ) ≠ 0 := by norm_num
  rw [← value_decimal, decimal, h, ofDigits_zeros_append, Decimal.value, Decimal.value,
    zpow_add₀ hten, zpow_natCast]
  push_cast
  ring

theorem Spells.value_eq (h : sp.Spells d) : sp.value = d.value := by
  obtain ⟨a, b, hdigits, hplace⟩ := h
  have hexp : (b : ℤ) + (sp.exponent - sp.fraction.length) = d.exponent := by omega
  rw [value_of_digits hdigits, ofDigits_digitsOf, hexp]

end Spelling

end Numeral

namespace Layout

section Decimals

variable (mark : Mark)

theorem exists_spelling_ofNat (pointZero : Bool) (n e : ℕ) :
    ∃ sp : Spelling, sp.mark = mark ∧ sp.bare = point pointZero (digitsOf n) e ∧
      sp.Spells ⟨n, e⟩ ∧ sp.power? = none := by
  have hdigit : ∀ c ∈ digitsOf n ++ zeros e, c.isDigit = true := by
    intro c hc
    exact (List.mem_append.mp hc).elim isDigit_of_mem_digitsOf isDigit_of_mem_zeros
  have hne : digitsOf n ++ zeros e ≠ [] :=
    List.append_ne_nil_of_left_ne_nil Nat.toDigits_ne_nil _
  cases pointZero with
  | false =>
    refine ⟨⟨mark, digitsOf n ++ zeros e, none, none, by simp, by simpa using hdigit⟩,
      rfl, rfl, ⟨0, e, ?_, ?_⟩, rfl⟩
    · simp [Spelling.fraction]
    · simp [Spelling.fraction, Spelling.exponent]
  | true =>
    have hzero : ∀ c ∈ ['0'], c.isDigit = true := fun c => isDigit_of_mem_zeros (k := 1)
    refine ⟨⟨mark, digitsOf n ++ zeros e, some ['0'], none, by simp,
      List.forall_mem_append.mpr ⟨hdigit, hzero⟩⟩, rfl, rfl, ⟨0, e + 1, ?_, ?_⟩, rfl⟩
    · simp [Spelling.fraction, List.replicate_succ']
    · simp [Spelling.fraction, Spelling.exponent]

theorem exists_spelling_negSucc (pointZero : Bool) (n k : ℕ) :
    ∃ sp : Spelling, sp.mark = mark ∧ sp.bare = point pointZero (digitsOf n) (.negSucc k) ∧
      sp.Spells ⟨n, .negSucc k⟩ ∧ sp.power? = none := by
  have hdigit : ∀ c ∈ digitsOf n, c.isDigit = true := fun c => isDigit_of_mem_digitsOf
  rw [point]
  split
  -- zeros fill the places up to the point
  · rename_i hshort
    have hall : ∀ c ∈ zeros (k + 1 - (digitsOf n).length + 1) ++ digitsOf n,
        c.isDigit = true := by
      intro c hc
      exact (List.mem_append.mp hc).elim isDigit_of_mem_zeros isDigit_of_mem_digitsOf
    refine ⟨⟨mark, ['0'], some (zeros (k + 1 - (digitsOf n).length) ++ digitsOf n), none,
      by simp, hall⟩, rfl, ?_, ⟨k + 1 - (digitsOf n).length + 1, 0, ?_, ?_⟩, rfl⟩
    · simp [Spelling.bare]
    · simp [Spelling.fraction, List.replicate_succ]
    · simp only [Spelling.fraction, Spelling.exponent, Option.getD_some, List.length_append,
        List.length_replicate, Nat.sub_add_cancel hshort]
      simp [Int.negSucc_eq]
  · rename_i hlong
    have hsplit := List.take_append_drop ((digitsOf n).length - (k + 1)) (digitsOf n)
    refine ⟨⟨mark, (digitsOf n).take ((digitsOf n).length - (k + 1)),
      some ((digitsOf n).drop ((digitsOf n).length - (k + 1))), none, ?_, ?_⟩, rfl, ?_,
      ⟨0, 0, ?_, ?_⟩, rfl⟩
    · rw [Option.getD_some, hsplit]
      exact Nat.toDigits_ne_nil
    · rw [Option.getD_some, hsplit]
      exact hdigit
    · simp [Spelling.bare]
    · simp [Spelling.fraction]
    · have hlength : (digitsOf n).length - ((digitsOf n).length - (k + 1)) = k + 1 := by omega
      simp only [Spelling.fraction, Spelling.exponent, Option.getD_some, List.length_drop, hlength]
      simp [Int.negSucc_eq]

theorem exists_spelling_scientific (d : Decimal) :
    ∃ sp : Spelling, sp.mark = mark ∧ sp.bare = scientific (digitsOf d.digits) d.leading ∧
      sp.Spells d ∧ sp.power? = some (Power.ofInt d.leading) := by
  obtain ⟨c, t, h⟩ := List.exists_cons_of_ne_nil (Nat.toDigits_ne_nil (n := d.digits) (b := 10))
  have hdigit : ∀ c ∈ digitsOf d.digits, c.isDigit = true := fun c => isDigit_of_mem_digitsOf
  have hleading : d.leading = d.exponent + t.length := by
    rw [Decimal.leading, Decimal.digitCount, h, List.length_cons]
    push_cast
    ring
  have hpower := Power.chars_ofInt d.leading
  have hvalue := Power.value_ofInt d.leading
  generalize d.leading = e at *
  rw [digitsOf, h] at hdigit ⊢
  cases t with
  | nil =>
    refine ⟨⟨mark, [c], none, some (.ofInt e), by simp, by simpa using hdigit⟩, rfl, ?_,
      ⟨0, 0, ?_, ?_⟩, rfl⟩
    · simp [Spelling.bare, scientific, hpower]
    · simp [Spelling.fraction, h]
    · simpa [Spelling.fraction, Spelling.exponent, hvalue] using hleading
  | cons b t =>
    refine ⟨⟨mark, [c], some (b :: t), some (.ofInt e), by simp, hdigit⟩, rfl, ?_,
      ⟨0, 0, ?_, ?_⟩, rfl⟩
    · simp [Spelling.bare, scientific, hpower]
    · simp [Spelling.fraction, h]
    · simpa [Spelling.fraction, Spelling.exponent, hvalue] using hleading

/-- A decimal is written with its digits and zeros around them, and with an exponent where it is
not written positionally. -/
theorem exists_spelling_decimal (layout : Layout) (d : Decimal) :
    ∃ sp : Spelling, sp.mark = mark ∧ sp.bare = layout.decimal d ∧ sp.Spells d ∧
      (sp.power? = none ↔ layout.positional d.leading = true) := by
  rw [Layout.decimal]
  split
  · rename_i hpositional
    obtain ⟨n, e⟩ := d
    cases e with
    | ofNat e =>
      obtain ⟨sp, hmark, hbare, hspells, hpower⟩ := exists_spelling_ofNat mark layout.pointZero n e
      exact ⟨sp, hmark, hbare, hspells, iff_of_true hpower hpositional⟩
    | negSucc k =>
      obtain ⟨sp, hmark, hbare, hspells, hpower⟩ :=
        exists_spelling_negSucc mark layout.pointZero n k
      exact ⟨sp, hmark, hbare, hspells, iff_of_true hpower hpositional⟩
  · rename_i hpositional
    obtain ⟨sp, hmark, hbare, hspells, hpower⟩ := exists_spelling_scientific mark d
    refine ⟨sp, hmark, hbare, hspells, iff_of_false ?_ hpositional⟩
    rw [hpower]
    exact Option.some_ne_none _

end Decimals

section Floats

variable {layout : Layout} {x : Float}

theorem magnitude_infinityCode : layout.magnitude Binary64.infinityCode = ['i', 'n', 'f'] :=
  if_pos rfl

/-- The decimal that a float of a finite code is written as. -/
def shown (c : ℕ) : Decimal := if c = 0 then ⟨0, 0⟩ else Binary64.shortest c

theorem ofDecimal_shown {c : ℕ} (hc : c < Binary64.infinityCode) :
    Binary64.ofDecimal (shown c) = c := by
  rw [shown]
  split
  · rename_i h0
    rw [h0]
    rfl
  · rename_i h0
    exact Binary64.ofDecimal_shortest (Nat.pos_of_ne_zero h0) hc

/-- A float of a finite value is written as its sign and the decimal that is shown for it. -/
theorem exists_spelling_text (layout : Layout) (hx : Binary64.code x < Binary64.infinityCode) :
    ∃ sp : Spelling, sp.text = layout.text x ∧ sp.mark.negative = Binary64.negative x ∧
      sp.Spells (shown (Binary64.code x)) ∧
      (sp.power? = none ↔ layout.positional (shown (Binary64.code x)).leading = true) := by
  obtain ⟨sp, hmark, hbare, hspells, hpower⟩ := layout.exists_spelling_decimal
    (if Binary64.negative x then .minus else .none) (shown (Binary64.code x))
  refine ⟨sp, ?_, ?_, hspells, hpower⟩
  · have hnumber : ¬Binary64.isNaN x = true := by
      simpa [Binary64.isNaN] using hx.le
    rw [Spelling.text, text, chars, if_neg hnumber, magnitude, if_neg hx.ne, hmark, hbare]
    cases Binary64.negative x <;> rfl
  · rw [hmark]
    cases Binary64.negative x <;> rfl

theorem float_of_spells {sp : Spelling} (hx : Binary64.code x < Binary64.infinityCode)
    (hsign : sp.mark.negative = Binary64.negative x) (h : sp.Spells (shown (Binary64.code x))) :
    sp.float = x := by
  have hvalue : sp.decimal.value = (shown (Binary64.code x)).value :=
    sp.value_decimal.trans h.value_eq
  rw [Spelling.float, Binary64.ofDecimal_congr hvalue, ofDecimal_shown hx, hsign,
    Binary64.ofCode_code]

theorem classify_text (layout : Layout) (x : Float) :
    Token.classify (layout.text x) = .ok (.number x) := by
  rcases Nat.lt_trichotomy (Binary64.code x) Binary64.infinityCode with hlt | heq | hgt
  · obtain ⟨sp, htext, hsign, hspells, -⟩ := layout.exists_spelling_text hlt
    rw [← htext, sp.classify_text, float_of_spells hlt hsign hspells]
  · have hnumber : ¬Binary64.isNaN x = true := by
      simp [Binary64.isNaN, heq]
    have hx : x = Binary64.ofCode (Binary64.negative x) Binary64.infinityCode := by
      rw [← heq, Binary64.ofCode_code]
    rw [text, chars, if_neg hnumber, heq, magnitude_infinityCode]
    generalize Binary64.negative x = s at *
    cases s <;> exact hx ▸ rfl
  · have hnan : Binary64.isNaN x = true := decide_eq_true hgt
    rw [text, chars, if_pos hnan, Binary64.eq_nan_of_isNaN hnan]
    rfl

end Floats

section Characters

variable {layout : Layout} {x : Float}

def isNumeric (c : Char) : Bool := c.isDigit || c = '.' || c = '-' || c = 'e'

def isWritten (c : Char) : Bool := isNumeric c || ['i', 'n', 'f', 'N', 'a'].contains c

theorem isNumeric_digitsOf (n : ℕ) : ∀ c ∈ digitsOf n, isNumeric c = true := by
  intro c h
  simp [isNumeric, isDigit_of_mem_digitsOf h]

theorem isNumeric_zeros (k : ℕ) : ∀ c ∈ List.replicate k '0', isNumeric c = true := by
  intro c h
  rw [List.eq_of_mem_replicate h]
  rfl

theorem isNumeric_int (e : ℤ) : ∀ c ∈ int e, isNumeric c = true := by
  cases e with
  | ofNat n => exact isNumeric_digitsOf n
  | negSucc n => exact List.forall_mem_cons.mpr ⟨rfl, isNumeric_digitsOf (n + 1)⟩

theorem isNumeric_point (pointZero : Bool) (n : ℕ) (e : ℤ) :
    ∀ c ∈ point pointZero (digitsOf n) e, isNumeric c = true := by
  have hdigits := isNumeric_digitsOf n
  cases e with
  | ofNat e =>
    refine List.forall_mem_append.mpr ⟨?_, ?_⟩
    · exact List.forall_mem_append.mpr ⟨hdigits, isNumeric_zeros e⟩
    · cases pointZero <;> simp [isNumeric]
  | negSucc k =>
    rw [point]
    split
    · refine List.forall_mem_cons.mpr ⟨rfl, List.forall_mem_cons.mpr ⟨rfl, ?_⟩⟩
      exact List.forall_mem_append.mpr ⟨isNumeric_zeros _, hdigits⟩
    · refine List.forall_mem_append.mpr ⟨fun c h => hdigits c (List.mem_of_mem_take h), ?_⟩
      exact List.forall_mem_cons.mpr ⟨rfl, fun c h => hdigits c (List.mem_of_mem_drop h)⟩

theorem isNumeric_scientific (n : ℕ) (e : ℤ) :
    ∀ c ∈ scientific (digitsOf n) e, isNumeric c = true := by
  have hdigits := isNumeric_digitsOf n
  have hfraction : ∀ c ∈ (digitsOf n).drop 1, isNumeric c = true :=
    fun c h => hdigits c (List.mem_of_mem_drop h)
  refine List.forall_mem_append.mpr ⟨List.forall_mem_append.mpr ⟨?_, ?_⟩, ?_⟩
  · exact fun c h => hdigits c (List.mem_of_mem_take h)
  · split
    · exact List.forall_mem_nil _
    · exact List.forall_mem_cons.mpr ⟨rfl, hfraction⟩
  · exact List.forall_mem_cons.mpr ⟨rfl, isNumeric_int e⟩

theorem isWritten_magnitude (layout : Layout) (n : ℕ) :
    ∀ c ∈ layout.magnitude n, isWritten c = true := by
  have hdecimal : ∀ d, ∀ c ∈ layout.decimal d, isWritten c = true := by
    intro d c h
    rw [isWritten, Bool.or_eq_true]
    rw [decimal] at h
    split at h
    · exact Or.inl (isNumeric_point _ _ _ c h)
    · exact Or.inl (isNumeric_scientific _ _ c h)
  rw [magnitude]
  split
  · simp [isWritten]
  · exact hdecimal _

theorem isWritten_of_mem_chars {c : Char} (h : c ∈ layout.chars x) : isWritten c = true := by
  have hmagnitude := layout.isWritten_magnitude (Binary64.code x)
  rw [chars] at h
  split at h
  · have hnan : ∀ c ∈ ['N', 'a', 'N'], isWritten c = true := by simp [isWritten]
    exact hnan c h
  · split at h
    · rcases List.mem_cons.mp h with rfl | h
      · rfl
      · exact hmagnitude c h
    · exact hmagnitude c h

end Characters

end Layout

end ReversePolish
