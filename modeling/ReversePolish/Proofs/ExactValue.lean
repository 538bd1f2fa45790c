import ReversePolish.Proofs.Packing
import ReversePolish.Proofs.Rounding

/-!
# The values of floats

What a float is worth can be said in the terms in which floats are taken apart, as a significand
times a power of two, without codes. The codes below that of infinity are the floats of a finite
value, and their values and the parity of their significands are those of their codes
(`absolute_eq`, `significand_mod_two`). So a ratio rounds to the code of a float that is nearest to
it, of two to the one with the even significand (`RoundsTo.abs_sub_le`).
-/

namespace ReversePolish.Binary64

open Float.Model

/-- The absolute value of a float, with infinity for what is no number. -/
def absolute (x : Float) : WithTop ℚ :=
  match x.toModel.unpack with
  | .zero _ => (0 : ℚ)
  | .finite _ m e _ => (m * 2 ^ e : ℚ)
  | .infinity _ | .notANumber => ⊤

/-- The whole number that a float is a multiple of a power of two by. -/
def significand (x : Float) : ℕ :=
  match x.toModel.unpack with
  | .finite _ m _ _ => m
  | .zero _ | .infinity _ | .notANumber => 0

theorem infinityCode_eq : infinityCode = 2047 * binade := rfl

theorem toNat_exponentBits_code (x : Float) :
    (exponentBits x.toBits.toBitVec).toNat = code x / binade := by
  rw [toNat_exponentBits, code, binade_eq]
  simp only [signWeight]
  omega

theorem toNat_significandBits_code (x : Float) :
    (significandBits x.toBits.toBitVec).toNat = code x % binade := by
  rw [toNat_significandBits, code, binade_eq]
  simp only [signWeight]
  omega

theorem exponentBits_eq_iff (x : Float) {n : ℕ} (hn : n < 2 ^ 11) :
    exponentBits x.toBits.toBitVec = BitVec.ofNat 11 n ↔ code x / binade = n := by
  rw [← toNat_exponentBits_code, ← BitVec.toNat_inj, BitVec.toNat_ofNat, Nat.mod_eq_of_lt hn]

theorem significandBits_eq_zero_iff (x : Float) :
    significandBits x.toBits.toBitVec = 0 ↔ code x % binade = 0 := by
  rw [← toNat_significandBits_code, ← BitVec.toNat_inj]
  rfl

theorem units_of_lt {c : ℕ} (h : c < binade) : units c = c := by
  rw [units, if_pos (Nat.div_eq_of_lt h), Nat.mod_eq_of_lt h]

theorem units_of_div {c t : ℕ} (h : c / binade = t + 1) :
    units c = (binade + c % binade) * 2 ^ t := by
  rw [units, if_neg (by omega), h, Nat.add_sub_cancel, Nat.shiftLeft_eq]

inductive Unpacked (c : ℕ) : UnpackedFloat → Prop
  | zero (s : UnpackedFloat.Sign) (h : c = 0) : Unpacked c (.zero s)
  | subnormal (s : UnpackedFloat.Sign) {m : ℕ} {e : ℤ} (hpos : 0 < m) (h : c < binade)
      (hm : m = c) (he : e = -1074) : Unpacked c (.finite s m e hpos)
  | normal (s : UnpackedFloat.Sign) {m t : ℕ} {e : ℤ} (hpos : 0 < m) (h : c < infinityCode)
      (ht : c / binade = t + 1) (hm : m = binade + c % binade) (he : e = t - 1074) :
      Unpacked c (.finite s m e hpos)
  | infinity (s : UnpackedFloat.Sign) (h : c = infinityCode) : Unpacked c (.infinity s)
  | notANumber (h : infinityCode < c) : Unpacked c .notANumber

theorem unpacked (x : Float) : Unpacked (code x) x.toModel.unpack := by
  have hE {n : ℕ} (hn : n < 2 ^ 11) := exponentBits_eq_iff x hn
  have hS := significandBits_eq_zero_iff x
  have hsplit := Nat.div_add_mod (code x) binade
  have hmod : code x % binade < binade := Nat.mod_lt _ (by decide)
  change Unpacked (code x) (UnpackedFloat.unpack .binary64 x.toBits.toBitVec)
  rw [UnpackedFloat.unpack]
  split
  · rename_i h
    rw [(hE (by decide)).mp h] at hsplit
    split
    · rename_i h0
      exact .infinity _ (by rw [← hsplit, hS.mp h0]; rfl)
    · rename_i h0
      have hpos := Nat.pos_of_ne_zero fun hzero => h0 (hS.mpr hzero)
      exact .notANumber (by rw [← hsplit]; exact Nat.lt_add_of_pos_right hpos)
  · rename_i h
    have hne : code x / binade ≠ 2047 := fun hc => h ((hE (by decide)).mpr hc)
    split
    · rename_i h0
      have hcode : code x / binade = 0 := (hE (by decide)).mp h0
      rw [hcode, Nat.mul_zero, Nat.zero_add] at hsplit
      split
      · rename_i h1
        exact .zero _ (by rw [← hsplit, hS.mp h1])
      · apply Unpacked.subnormal
        · exact hsplit ▸ hmod
        · exact (toNat_significandBits_code x).trans hsplit
        · change ((exponentBits x.toBits.toBitVec).toNat - _ + 1 : ℤ) = _
          rw [toNat_exponentBits_code, hcode]
          rfl
    · rename_i h0
      have hne0 : code x / binade ≠ 0 := fun hc => h0 ((hE (by decide)).mpr hc)
      obtain ⟨t, ht⟩ := Nat.exists_eq_succ_of_ne_zero hne0
      have hbound : (exponentBits x.toBits.toBitVec).toNat < 2 ^ 11 := BitVec.isLt _
      rw [toNat_exponentBits_code] at hbound
      have hlt : code x < infinityCode := by
        rw [infinityCode_eq, ← Nat.div_lt_iff_lt_mul (by decide)]
        omega
      refine .normal _ _ hlt ht ?_ ?_
      · rw [toNat_one_append]
        exact congrArg (binade + ·) (toNat_significandBits_code x)
      · change ((exponentBits x.toBits.toBitVec).toNat - 1075 : ℤ) = t - 1074
        rw [toNat_exponentBits_code, ht]
        omega

/-- A float of a finite value is worth what its code is worth. -/
theorem absolute_eq {x : Float} (h : code x < infinityCode) :
    absolute x = ((units (code x) / 2 ^ 1074 : ℚ) : WithTop ℚ) := by
  have hx := unpacked x
  rw [absolute]
  generalize x.toModel.unpack = u at hx
  cases hx with
  | zero s hc => simp [hc, units]
  | @subnormal s m e hpos hc hm he =>
    change ((m * 2 ^ e : ℚ) : WithTop ℚ) = _
    rw [hm, he, units_of_lt hc, div_eq_mul_inv]
    rfl
  | @normal s m t e hpos hc ht hm he =>
    change ((m * 2 ^ e : ℚ) : WithTop ℚ) = _
    rw [hm, he, units_of_div ht, zpow_sub₀ (two_ne_zero' ℚ), Nat.cast_mul, Nat.cast_pow,
      mul_div_assoc]
    rfl
  | infinity s hc => exact absurd h (by simp [hc])
  | notANumber hc => exact absurd h hc.not_gt

theorem absolute_eq_top {x : Float} (h : infinityCode ≤ code x) : absolute x = ⊤ := by
  have hx := unpacked x
  rw [absolute]
  generalize x.toModel.unpack = u at hx
  cases hx with
  | zero s hc => exact absurd h (by rw [hc]; decide)
  | subnormal s hpos hc hm he => exact absurd h (by rw [infinityCode_eq]; omega)
  | normal s hpos hc ht hm he => exact absurd h (not_le.mpr hc)
  | infinity s hc => rfl
  | notANumber hc => rfl

/-- The significand of a number is even where its code is. -/
theorem significand_mod_two {x : Float} (h : code x < infinityCode) :
    significand x % 2 = code x % 2 := by
  have hx := unpacked x
  rw [significand]
  generalize x.toModel.unpack = u at hx
  cases hx with
  | zero s hc => rw [hc]
  | @subnormal s m e hpos hc hm he =>
    change m % 2 = code x % 2
    rw [hm]
  | @normal s m t e hpos hc ht hm he =>
    change m % 2 = code x % 2
    rw [hm, binade_eq]
    omega
  | infinity s hc => exact absurd h (by simp [hc])
  | notANumber hc => exact absurd h hc.not_gt

section Nearest

variable {x : ℚ} {c : ℕ}

theorem two_mul_midpoint (b : ℕ) : 2 * midpoint b = units b + units (b + 1) := by
  rw [midpoint]
  ring

/-- What a ratio rounds to is as near to it as any other code, and even if another one is as
near. -/
theorem RoundsTo.abs_sub_le (h : RoundsTo x c) (hc : c < infinityCode) (b : ℕ) :
    |(units c : ℚ) - x| ≤ |(units b : ℚ) - x| ∧
      (|(units c : ℚ) - x| = |(units b : ℚ) - x| → b = c ∨ c % 2 = 0) := by
  rcases Nat.lt_trichotomy b c with hlt | rfl | hgt
  · obtain ⟨a, rfl⟩ := Nat.exists_eq_succ_of_ne_zero (Nat.ne_zero_of_lt hlt)
    obtain ⟨hmid, heven⟩ := h.above a rfl
    have htwo := two_mul_midpoint a
    have hstep : (units a : ℚ) < units (a + 1) := by exact_mod_cast units_lt_succ a
    have hb : (units b : ℚ) ≤ units a := by
      exact_mod_cast units_strictMono.monotone (Nat.le_of_lt_succ hlt)
    have hx : |(units b : ℚ) - x| = x - units b := by
      rw [abs_sub_comm, abs_of_nonneg (by linarith)]
    rw [hx, abs_le]
    refine ⟨⟨by linarith, by linarith⟩, fun heq => Or.inr (heven ?_)⟩
    rcases abs_cases ((units (a + 1) : ℚ) - x) with ⟨habs, -⟩ | ⟨habs, -⟩ <;> linarith
  · exact ⟨le_rfl, fun _ => Or.inl rfl⟩
  · obtain ⟨hmid, heven⟩ := h.below hc
    have htwo := two_mul_midpoint c
    have hstep : (units c : ℚ) < units (c + 1) := by exact_mod_cast units_lt_succ c
    have hb : (units (c + 1) : ℚ) ≤ units b := by
      exact_mod_cast units_strictMono.monotone (Nat.succ_le_of_lt hgt)
    have hx : |(units b : ℚ) - x| = units b - x := abs_of_nonneg (by linarith)
    rw [hx, abs_le]
    refine ⟨⟨by linarith, by linarith⟩, fun heq => Or.inr (heven ?_)⟩
    rcases abs_cases ((units c : ℚ) - x) with ⟨habs, -⟩ | ⟨habs, -⟩ <;> linarith

theorem midpoint_pred_infinityCode :
    midpoint (infinityCode - 1) = inUnits (2 ^ 1024 - 2 ^ 970) := by
  have hcode : infinityCode - 1 = 2045 * binade + (2 ^ 53 - 1) := by decide
  have hgap : (2 : ℚ) ^ 1024 - 2 ^ 970 = ((2 ^ 53 - 1 : ℕ) + 1 / 2) * 2 ^ 971 := by
    rw [pow_add 2 54 970, pow_add 2 1 970, Nat.cast_sub (by decide)]
    generalize (2 : ℚ) ^ 970 = u
    push_cast
    ring
  rw [hcode, midpoint_grid (by decide) (Or.inr (by decide)), inUnits, hgap, mul_assoc, ← pow_add]

theorem midpoint_zero_eq : midpoint 0 = inUnits (2 ^ (-1075 : ℤ)) := by
  rw [midpoint_zero, inUnits, ← zpow_natCast, ← zpow_add₀ two_ne_zero]
  norm_num

/-- Infinity is what lies at or beyond the middle between the greatest number and the next power of
two. -/
theorem RoundsTo.eq_infinityCode_iff {q : ℚ} (h : RoundsTo (inUnits q) c) :
    c = infinityCode ↔ 2 ^ 1024 - 2 ^ 970 ≤ q := by
  have hlast : infinityCode - 1 < c ↔ c = infinityCode := by
    have hle := h.le_infinity
    have hpos : 0 < infinityCode := by decide
    omega
  rw [← hlast, h.lt_iff (by decide), midpoint_pred_infinityCode, ← inUnits_le_inUnits,
    le_iff_lt_or_eq]
  exact or_congr_right (and_iff_left (by decide))

/-- Zero is what lies at or below the middle between zero and the least positive number. -/
theorem RoundsTo.eq_zero_iff {q : ℚ} (h : RoundsTo (inUnits q) c) :
    c = 0 ↔ q ≤ 2 ^ (-1075 : ℤ) := by
  rw [← inUnits_le_inUnits, ← midpoint_zero_eq, ← not_lt, ← Nat.le_zero, ← not_lt,
    h.lt_iff (by decide)]
  simp

end Nearest

theorem of_absolute_eq {x : Float} {a : ℚ} (h : absolute x = a) :
    code x < infinityCode ∧ a = units (code x) / 2 ^ 1074 := by
  rcases Nat.lt_or_ge (code x) infinityCode with hlt | hge
  · rw [absolute_eq hlt] at h
    exact ⟨hlt, (WithTop.coe_inj.mp h).symm⟩
  · rw [absolute_eq_top hge] at h
    exact absurd h (WithTop.top_ne_coe)

theorem abs_div_sub (n : ℕ) (q : ℚ) :
    |(n / 2 ^ 1074 : ℚ) - q| = |(n : ℚ) - inUnits q| / 2 ^ 1074 := by
  have hpos : (0 : ℚ) < 2 ^ 1074 := by positivity
  rw [inUnits, ← abs_of_pos hpos, ← abs_div, abs_of_pos hpos, sub_div, mul_div_assoc,
    div_self hpos.ne', mul_one]

/-- Of the floats of a finite value none is nearer to a ratio than the one it rounds to, and where
another one is as near, the significand of this one is even. -/
theorem abs_sub_le_of_roundsTo {q : ℚ} {v : Float} (h : RoundsTo (inUnits q) (code v)) {a : ℚ}
    (ha : absolute v = a) {y : Float} {b : ℚ} (hb : absolute y = b) :
    |a - q| ≤ |b - q| ∧ (|a - q| = |b - q| → b = a ∨ significand v % 2 = 0) := by
  obtain ⟨hv, rfl⟩ := of_absolute_eq ha
  obtain ⟨-, rfl⟩ := of_absolute_eq hb
  obtain ⟨hle, heven⟩ := h.abs_sub_le hv (code y)
  have hpos : (0 : ℚ) < 2 ^ 1074 := by positivity
  rw [abs_div_sub, abs_div_sub, div_le_div_iff_of_pos_right hpos]
  refine ⟨hle, fun heq => ?_⟩
  rcases heven ((div_left_inj' hpos.ne').mp heq) with hsame | hc
  · exact Or.inl (by rw [hsame])
  · exact Or.inr (by rw [significand_mod_two hv, hc])

theorem absolute_le_of_code_le {v w : Float} (h : code v ≤ code w) :
    absolute v ≤ absolute w := by
  rcases Nat.lt_or_ge (code w) infinityCode with hlt | hge
  · rw [absolute_eq (h.trans_lt hlt), absolute_eq hlt, WithTop.coe_le_coe]
    have hle : (units (code v) : ℚ) ≤ units (code w) := by
      exact_mod_cast units_strictMono.monotone h
    gcongr
  · rw [absolute_eq_top hge]
    exact le_top

end ReversePolish.Binary64
