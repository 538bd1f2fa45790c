import Mathlib
import ReversePolish.Binary64.Nearest

/-!
# Correct rounding

Codes are values in ascending order, and halfway between the values of two neighbours the nearest
code changes from one to the other. A ratio rounds to a code when it lies between the midpoints
below and above it, and on one of them only if the code is even (`RoundsTo`). Every ratio rounds to
one code at most (`roundsTo_unique`). That of `nearestCode` is one, and `ofDecimal` finds it for
every decimal, so decimals of one value have one code (`ofDecimal_congr`).
-/

namespace ReversePolish

namespace Decimal

def value (d : Decimal) : ℚ := d.digits * 10 ^ d.exponent

@[simp] theorem tenTo_eq (n : ℕ) : tenTo n = 10 ^ n := rfl

theorem value_one (e : ℤ) : value ⟨1, e⟩ = 10 ^ e := by
  simp [value]

theorem pow_le_value_iff {d : Decimal} {k : ℕ} :
    10 ^ (k + d.exponent) ≤ d.value ↔ 10 ^ k ≤ d.digits := by
  rw [value, zpow_add₀ (by norm_num), mul_le_mul_iff_left₀ (by positivity), zpow_natCast]
  exact_mod_cast Iff.rfl

end Decimal

namespace Binary64

theorem binade_eq : binade = 2 ^ 52 := rfl

/-- Codes of one spacing, up to the first of the next one: a multiple of the spacing each. -/
theorem units_grid {t k : ℕ} (hk : k ≤ 2 ^ 53) (ht : t = 0 ∨ 2 ^ 52 ≤ k) :
    units (t * binade + k) = k * 2 ^ t := by
  rw [units, Nat.shiftLeft_eq, binade_eq]
  rcases Nat.lt_or_ge k (2 ^ 52) with hlt | hge
  · obtain rfl : t = 0 := ht.resolve_right (by omega)
    rw [if_pos (by omega)]
    simp only [pow_zero]
    omega
  · rcases Nat.lt_or_eq_of_le hk with hlt | rfl
    · have hdiv : (t * 2 ^ 52 + k) / 2 ^ 52 = t + 1 := by omega
      have hmod : (t * 2 ^ 52 + k) % 2 ^ 52 = k - 2 ^ 52 := by omega
      rw [hdiv, hmod, if_neg (by omega), Nat.add_sub_cancel' hge, Nat.add_sub_cancel]
    · have hdiv : (t * 2 ^ 52 + 2 ^ 53) / 2 ^ 52 = t + 2 := by omega
      have hmod : (t * 2 ^ 52 + 2 ^ 53) % 2 ^ 52 = 0 := by omega
      rw [hdiv, hmod, if_neg (by omega)]
      change (2 ^ 52 + 0) * 2 ^ (t + 1) = 2 ^ 53 * 2 ^ t
      ring

theorem exists_grid (c : ℕ) :
    ∃ t k, c = t * binade + k ∧ k < 2 ^ 53 ∧ (t = 0 ∨ 2 ^ 52 ≤ k) := by
  refine ⟨c / binade - 1, c - (c / binade - 1) * binade, ?_, ?_, ?_⟩ <;>
    · simp only [binade_eq]
      omega

theorem units_lt_succ (c : ℕ) : units c < units (c + 1) := by
  obtain ⟨t, k, rfl, hk, ht⟩ := exists_grid c
  rw [units_grid hk.le ht, Nat.add_assoc, units_grid (by omega) (by omega)]
  exact Nat.mul_lt_mul_of_pos_right (Nat.lt_succ_self k) (by positivity)

theorem units_strictMono : StrictMono units := strictMono_nat_of_lt_succ units_lt_succ

/-- Halfway between the values of a code and the next one, in units. -/
def midpoint (c : ℕ) : ℚ := (units c + units (c + 1)) / 2

theorem units_lt_midpoint (c : ℕ) : (units c : ℚ) < midpoint c := by
  have h : (units c : ℚ) < units (c + 1) := by exact_mod_cast units_lt_succ c
  rw [midpoint]
  linarith

theorem midpoint_lt_units_succ (c : ℕ) : midpoint c < units (c + 1) := by
  have h : (units c : ℚ) < units (c + 1) := by exact_mod_cast units_lt_succ c
  rw [midpoint]
  linarith

theorem midpoint_strictMono : StrictMono midpoint :=
  strictMono_nat_of_lt_succ fun c => (midpoint_lt_units_succ c).trans (units_lt_midpoint (c + 1))

theorem midpoint_grid {t k : ℕ} (hk : k < 2 ^ 53) (ht : t = 0 ∨ 2 ^ 52 ≤ k) :
    midpoint (t * binade + k) = (k + 1 / 2) * 2 ^ t := by
  rw [midpoint, units_grid hk.le ht, Nat.add_assoc, units_grid (by omega) (by omega)]
  push_cast
  ring

/-- A ratio, in units, lies between the midpoints next to a code, and on one only if the code is
even. Nothing lies above infinity. -/
structure RoundsTo (x : ℚ) (c : ℕ) : Prop where
  le_infinity : c ≤ infinityCode
  above : ∀ b, b + 1 = c → midpoint b ≤ x ∧ (midpoint b = x → c % 2 = 0)
  below : c < infinityCode → x ≤ midpoint c ∧ (x = midpoint c → c % 2 = 0)

/-- A ratio rounds beyond a code if it lies beyond the midpoint above it, or on that midpoint when
the code is odd. -/
theorem RoundsTo.lt_iff {x : ℚ} {b c : ℕ} (h : RoundsTo x c) (hb : b < infinityCode) :
    b < c ↔ midpoint b < x ∨ midpoint b = x ∧ b % 2 = 1 := by
  constructor
  · intro hlt
    obtain ⟨k, rfl⟩ := Nat.exists_eq_add_of_lt hlt
    obtain ⟨habove, heven⟩ := h.above (b + k) rfl
    have hle : midpoint b ≤ midpoint (b + k) :=
      midpoint_strictMono.monotone (Nat.le_add_right b k)
    rcases (hle.trans habove).lt_or_eq with hx | hx
    · exact Or.inl hx
    · have hk : b = b + k := midpoint_strictMono.injective (le_antisymm hle (hx ▸ habove))
      have hc := heven (le_antisymm habove (hx ▸ hle))
      exact Or.inr ⟨hx, by omega⟩
  · intro hx
    by_contra hcb
    obtain ⟨hbelow, heven⟩ := h.below ((not_lt.mp hcb).trans_lt hb)
    have hle : midpoint c ≤ midpoint b := midpoint_strictMono.monotone (not_lt.mp hcb)
    rcases hx with hx | ⟨rfl, hodd⟩
    · exact absurd (hbelow.trans hle) (not_le.mpr hx)
    · have hcb : c = b := midpoint_strictMono.injective (le_antisymm hle hbelow)
      have hc := heven (le_antisymm hbelow hle)
      omega

theorem RoundsTo.mono {x x' : ℚ} {c c' : ℕ} (h : RoundsTo x c) (h' : RoundsTo x' c')
    (hx : x ≤ x') : c ≤ c' := by
  by_contra hlt
  have hb : c' < infinityCode := (not_le.mp hlt).trans_le h.le_infinity
  apply lt_irrefl c'
  rw [h'.lt_iff hb]
  rcases (h.lt_iff hb).mp (not_le.mp hlt) with hmid | ⟨hmid, hodd⟩
  · exact Or.inl (hmid.trans_le hx)
  · rcases (hmid.trans_le hx).lt_or_eq with hlt | heq
    · exact Or.inl hlt
    · exact Or.inr ⟨heq, hodd⟩

theorem RoundsTo.of_between {x y z : ℚ} {c : ℕ} (hx : RoundsTo x c) (hz : RoundsTo z c)
    (hxy : x ≤ y) (hyz : y ≤ z) : RoundsTo y c where
  le_infinity := hx.le_infinity
  above := by
    intro b hb
    obtain ⟨hmid, heven⟩ := hx.above b hb
    refine ⟨hmid.trans hxy, fun heq => heven (le_antisymm hmid ?_)⟩
    rw [heq]
    exact hxy
  below := by
    intro hc
    obtain ⟨hmid, heven⟩ := hz.below hc
    refine ⟨hyz.trans hmid, fun heq => heven (le_antisymm hmid ?_)⟩
    rw [← heq]
    exact hyz

theorem roundsTo_unique {x : ℚ} {c c' : ℕ} (h : RoundsTo x c) (h' : RoundsTo x c') : c = c' :=
  Nat.le_antisymm (h.mono h' le_rfl) (h'.mono h le_rfl)

section RoundEven

variable {num den : ℕ}

theorem cast_div_eq (hden : 0 < den) :
    (num / den : ℚ) = (num / den : ℕ) + (num % den : ℕ) / (den : ℚ) := by
  have hd : (0 : ℚ) < den := by exact_mod_cast hden
  have hnum : (num : ℚ) = den * (num / den : ℕ) + (num % den : ℕ) := by
    exact_mod_cast (Nat.div_add_mod num den).symm
  rw [hnum]
  field_simp

/-- The nearest whole number is a half away at most, and even if it is a half away. -/
theorem roundEven_spec (num : ℕ) (hden : 0 < den) :
    (roundEven num den - 1 / 2 : ℚ) ≤ num / den ∧ (num / den : ℚ) ≤ roundEven num den + 1 / 2 ∧
    ((roundEven num den - 1 / 2 : ℚ) = num / den → roundEven num den % 2 = 0) ∧
    ((num / den : ℚ) = roundEven num den + 1 / 2 → roundEven num den % 2 = 0) := by
  have hd : (0 : ℚ) < den := by exact_mod_cast hden
  have hlt : (num % den : ℕ) / (den : ℚ) < 1 / 2 ↔ 2 * (num % den) < den := by
    rw [div_lt_div_iff₀ hd two_pos, one_mul, mul_comm]
    exact_mod_cast Iff.rfl
  have heq : (num % den : ℕ) / (den : ℚ) = 1 / 2 ↔ 2 * (num % den) = den := by
    rw [div_eq_div_iff hd.ne' two_ne_zero, one_mul, mul_comm]
    exact_mod_cast Iff.rfl
  have hnonneg : (0 : ℚ) ≤ (num % den : ℕ) / (den : ℚ) := by positivity
  have hone : (num % den : ℕ) / (den : ℚ) < 1 := by
    rw [div_lt_one hd]
    exact_mod_cast Nat.mod_lt num hden
  rw [cast_div_eq hden]
  generalize (num % den : ℕ) / (den : ℚ) = f at *
  rw [roundEven]
  split
  · rename_i h
    have hf : f ≤ 1 / 2 := h.elim (fun h => (hlt.mpr h).le) fun h => (heq.mpr h.1).le
    refine ⟨by linarith, by linarith, fun hx => by linarith, fun hx => ?_⟩
    have hhalf : f = 1 / 2 := by linarith
    have hden2 := heq.mp hhalf
    omega
  · rename_i h
    have hf : 1 / 2 ≤ f := not_lt.mp fun hf => h (Or.inl (hlt.mp hf))
    push_cast
    refine ⟨by linarith, by linarith, fun hx => ?_, fun hx => by linarith⟩
    have hhalf : f = 1 / 2 := by linarith
    have hden2 := heq.mp hhalf
    omega

theorem le_roundEven {a : ℕ} (h : a ≤ num / den) : a ≤ roundEven num den := by
  rw [roundEven]
  split <;> omega

theorem roundEven_le {a : ℕ} (h : num / den < a) : roundEven num den ≤ a := by
  rw [roundEven]
  split <;> omega

end RoundEven

/-- The spacing at a size leaves 53 bits at most, and all 53 unless it is the least. -/
theorem div_spacing (n : ℕ) :
    n / 2 ^ spacing n < 2 ^ 53 ∧ (spacing n = 0 ∨ 2 ^ 52 ≤ n / 2 ^ spacing n) := by
  have hpos : 0 < 2 ^ spacing n := by positivity
  have hlt : n < 2 ^ (n.log2 + 1) := Nat.lt_log2_self
  constructor
  · rw [Nat.div_lt_iff_lt_mul hpos, ← pow_add]
    refine hlt.trans_le (Nat.pow_le_pow_right two_pos ?_)
    rw [spacing]
    omega
  · rcases Nat.eq_zero_or_pos (spacing n) with h0 | h0
    · exact Or.inl h0
    · right
      have hn : n ≠ 0 := by
        rintro rfl
        exact absurd h0 (by decide)
      rw [Nat.le_div_iff_mul_le hpos, ← pow_add]
      refine le_trans (Nat.pow_le_pow_right two_pos ?_) (Nat.log2_self_le hn)
      rw [spacing] at h0 ⊢
      omega

section Nearest

variable {num den t : ℕ}

theorem cast_div_mul (hden : 0 < den) :
    (num / den : ℚ) = num / (den * 2 ^ t : ℕ) * 2 ^ t := by
  have hd : (den : ℚ) ≠ 0 := by exact_mod_cast hden.ne'
  push_cast
  field_simp

theorem units_roundEven (hk : roundEven num (den * 2 ^ t) ≤ 2 ^ 53)
    (ht : t = 0 ∨ 2 ^ 52 ≤ roundEven num (den * 2 ^ t)) :
    (units (t * binade + roundEven num (den * 2 ^ t)) : ℚ) =
      roundEven num (den * 2 ^ t) * 2 ^ t := by
  rw [units_grid hk ht]
  push_cast
  rfl

theorem even_grid {t k : ℕ} (h : k % 2 = 0) : (t * binade + k) % 2 = 0 := by
  rw [binade_eq]
  omega

theorem midpoint_le_of_grid (hden : 0 < den) (hlt : num / (den * 2 ^ t) < 2 ^ 53)
    (ht : t = 0 ∨ 2 ^ 52 ≤ num / (den * 2 ^ t)) {b : ℕ}
    (hb : b + 1 = t * binade + roundEven num (den * 2 ^ t)) :
    midpoint b ≤ num / den ∧ (midpoint b = num / den → (b + 1) % 2 = 0) := by
  have hD : 0 < den * 2 ^ t := by positivity
  have hp : (0 : ℚ) < 2 ^ t := by positivity
  obtain ⟨hlo, -, hlo', -⟩ := roundEven_spec num hD
  have hk : roundEven num (den * 2 ^ t) ≤ 2 ^ 53 := roundEven_le hlt
  have hunits := units_roundEven hk (ht.imp_right le_roundEven)
  rw [cast_div_mul hden (t := t)]
  by_cases hfirst : t = 0 ∨ 2 ^ 52 < roundEven num (den * 2 ^ t)
  · have hne : roundEven num (den * 2 ^ t) ≠ 0 := by
      intro h0
      rw [h0] at hb hfirst
      rcases hfirst with rfl | h
      · omega
      · exact absurd h (Nat.not_lt_zero _)
    obtain ⟨k, hk1⟩ := Nat.exists_eq_succ_of_ne_zero hne
    rw [hk1] at hb hk hfirst
    rw [hk1, Nat.cast_succ] at hlo hlo'
    obtain rfl : b = t * binade + k := by omega
    rw [midpoint_grid (by omega) (by omega)]
    constructor
    · exact mul_le_mul_of_nonneg_right (by linarith) hp.le
    · intro heq
      have hy := mul_right_cancel₀ hp.ne' heq
      rw [Nat.add_assoc]
      exact even_grid (hlo' (by linarith))
  -- under the first code of a spacing the midpoint is on a finer grid, but no ratio of this size
  -- lies below that code
  · have hge := le_roundEven (ht.resolve_left fun h => hfirst (Or.inl h))
    have hk2 : roundEven num (den * 2 ^ t) = 2 ^ 52 := by omega
    have hfloor : ((2 ^ 52 : ℕ) : ℚ) ≤ num / (den * 2 ^ t : ℕ) := by
      rw [le_div_iff₀ (by exact_mod_cast hD)]
      exact_mod_cast (Nat.le_div_iff_mul_le hD).mp (ht.resolve_left fun h => hfirst (Or.inl h))
    have hmid : midpoint b < num / (den * 2 ^ t : ℕ) * 2 ^ t := by
      refine (midpoint_lt_units_succ b).trans_le ?_
      rw [hb, hunits, hk2]
      exact mul_le_mul_of_nonneg_right hfloor hp.le
    exact ⟨hmid.le, fun h => absurd h hmid.ne⟩

theorem le_midpoint_of_grid (hden : 0 < den) (hlt : num / (den * 2 ^ t) < 2 ^ 53)
    (ht : t = 0 ∨ 2 ^ 52 ≤ num / (den * 2 ^ t)) :
    (num / den : ℚ) ≤ midpoint (t * binade + roundEven num (den * 2 ^ t)) ∧
      ((num / den : ℚ) = midpoint (t * binade + roundEven num (den * 2 ^ t)) →
        (t * binade + roundEven num (den * 2 ^ t)) % 2 = 0) := by
  have hD : 0 < den * 2 ^ t := by positivity
  have hp : (0 : ℚ) < 2 ^ t := by positivity
  obtain ⟨-, hhi, -, hhi'⟩ := roundEven_spec num hD
  have hk : roundEven num (den * 2 ^ t) ≤ 2 ^ 53 := roundEven_le hlt
  have hk' : t = 0 ∨ 2 ^ 52 ≤ roundEven num (den * 2 ^ t) := ht.imp_right le_roundEven
  rw [cast_div_mul hden (t := t)]
  rcases Nat.lt_or_eq_of_le hk with hk | hk
  · rw [midpoint_grid hk hk']
    constructor
    · exact mul_le_mul_of_nonneg_right hhi hp.le
    · intro heq
      exact even_grid (hhi' (mul_right_cancel₀ hp.ne' heq))
  · have hfloor : (num / (den * 2 ^ t : ℕ) : ℚ) < (2 ^ 53 : ℕ) := by
      rw [div_lt_iff₀ (by exact_mod_cast hD)]
      exact_mod_cast (Nat.div_lt_iff_lt_mul hD).mp hlt
    have hmid : num / (den * 2 ^ t : ℕ) * 2 ^ t <
        midpoint (t * binade + roundEven num (den * 2 ^ t)) := by
      refine lt_trans ?_ (units_lt_midpoint _)
      rw [units_roundEven hk.le hk', hk]
      exact mul_lt_mul_of_pos_right hfloor hp
    exact ⟨hmid.le, fun h => absurd h hmid.ne⟩

end Nearest

theorem roundsTo_min {x : ℚ} {c : ℕ}
    (habove : ∀ b, b + 1 = c → midpoint b ≤ x ∧ (midpoint b = x → (b + 1) % 2 = 0))
    (hbelow : x ≤ midpoint c ∧ (x = midpoint c → c % 2 = 0)) :
    RoundsTo x (min infinityCode c) := by
  rcases le_or_gt c infinityCode with hle | hlt
  · rw [Nat.min_eq_right hle]
    exact ⟨hle, fun b hb => hb ▸ habove b hb, fun _ => hbelow⟩
  · rw [Nat.min_eq_left hlt.le]
    obtain ⟨d, rfl⟩ := Nat.exists_eq_add_of_lt hlt
    refine ⟨le_rfl, fun b hb => ⟨?_, fun _ => rfl⟩, fun h => absurd h (lt_irrefl _)⟩
    have hmono : midpoint b ≤ midpoint (infinityCode + d) :=
      midpoint_strictMono.monotone (by omega)
    exact hmono.trans (habove _ rfl).1

def inUnits (q : ℚ) : ℚ := q * 2 ^ 1074

theorem inUnits_le_inUnits {p q : ℚ} : inUnits p ≤ inUnits q ↔ p ≤ q := by
  have hpos : (0 : ℚ) < 2 ^ 1074 := by positivity
  exact mul_le_mul_iff_left₀ hpos

theorem cast_shiftLeft (n s : ℕ) : ((n <<< s : ℕ) : ℚ) = n * 2 ^ s := by
  rw [Nat.shiftLeft_eq]
  push_cast
  rfl

theorem inUnits_div (num den : ℕ) : inUnits (num / den) = (num <<< 1074 : ℕ) / den := by
  rw [cast_shiftLeft]
  exact div_mul_eq_mul_div _ _ _

theorem roundsTo_nearestCode (num : ℕ) {den : ℕ} (hden : 0 < den) :
    RoundsTo (inUnits (num / den)) (nearestCode num den) := by
  rw [inUnits_div, nearestCode]
  generalize num <<< 1074 = n
  obtain ⟨hlt, ht⟩ := div_spacing (n / den)
  rw [Nat.div_div_eq_div_mul] at hlt ht
  simp only [Nat.shiftLeft_eq]
  generalize spacing (n / den) = t at *
  apply roundsTo_min
  · intro b hb
    exact midpoint_le_of_grid hden hlt ht hb
  · exact le_midpoint_of_grid hden hlt ht

theorem midpoint_zero : midpoint 0 = 1 / 2 := by
  have h0 : units 0 = 0 := rfl
  have h1 : units 1 = 1 := rfl
  rw [midpoint, h0, h1]
  norm_num

theorem roundsTo_zero {x : ℚ} (h : x < 1 / 2) : RoundsTo x 0 := by
  rw [← midpoint_zero] at h
  exact ⟨Nat.zero_le _, fun _ hb => absurd hb (Nat.succ_ne_zero _), fun _ => ⟨h.le, fun _ => rfl⟩⟩

theorem roundsTo_infinity {x : ℚ} (h : (units infinityCode : ℚ) ≤ x) :
    RoundsTo x infinityCode := by
  refine ⟨le_rfl, ?_, fun h => absurd h (lt_irrefl _)⟩
  intro b hb
  have hmid : midpoint b < x := (midpoint_lt_units_succ b).trans_le (hb ▸ h)
  exact ⟨hmid.le, fun heq => absurd heq hmid.ne⟩

theorem roundsTo_units (hc : c ≤ infinityCode) : RoundsTo (units c) c where
  le_infinity := hc
  above := by
    rintro b rfl
    have hmid := midpoint_lt_units_succ b
    exact ⟨hmid.le, fun heq => absurd heq hmid.ne⟩
  below _ := by
    have hmid := units_lt_midpoint c
    exact ⟨hmid.le, fun heq => absurd heq hmid.ne⟩

theorem units_infinityCode : (units infinityCode : ℚ) = inUnits (2 ^ 1024) := by
  have hcode : infinityCode = 2045 * binade + 2 ^ 53 := by decide
  rw [hcode, units_grid le_rfl (Or.inr (by decide)), Nat.cast_mul, Nat.cast_pow, Nat.cast_pow,
    inUnits, ← pow_add, ← pow_add]
  rfl

theorem two_pow_le_ten_pow {a k : ℕ} (h : a ≤ 3 * k) : (2 : ℚ) ^ a ≤ 10 ^ k := by
  calc (2 : ℚ) ^ a ≤ 2 ^ (3 * k) := pow_le_pow_right₀ one_le_two h
    _ = 8 ^ k := by rw [pow_mul]; norm_num
    _ ≤ 10 ^ k := pow_le_pow_left₀ (by norm_num) (by norm_num) k

theorem units_infinityCode_le {m e : ℕ} (hm : 0 < m) (he : 400 ≤ e) :
    (units infinityCode : ℚ) ≤ inUnits (m * 10 ^ e) := by
  have hone : (1 : ℚ) ≤ m := by exact_mod_cast hm
  have hten : (2 : ℚ) ^ 1024 ≤ 10 ^ e := two_pow_le_ten_pow (by omega)
  rw [units_infinityCode, inUnits, inUnits]
  refine mul_le_mul_of_nonneg_right ?_ (by positivity)
  calc (2 : ℚ) ^ 1024 ≤ 10 ^ e := hten
    _ ≤ m * 10 ^ e := le_mul_of_one_le_left (by positivity) hone

theorem inUnits_lt_half {m k : ℕ} (h : m.log2 + 1077 ≤ 3 * k) :
    inUnits (m / 10 ^ k) < 1 / 2 := by
  have hm : (m : ℚ) < 2 ^ (m.log2 + 1) := by exact_mod_cast Nat.lt_log2_self
  have hk : (2 : ℚ) ^ (m.log2 + 1 + 1 + 1074) ≤ 10 ^ k := two_pow_le_ten_pow (by omega)
  rw [pow_add, pow_succ] at hk
  have hpos : (0 : ℚ) < 10 ^ k := by positivity
  rw [inUnits, div_mul_eq_mul_div, div_lt_div_iff₀ hpos two_pos, one_mul]
  have hunit : (0 : ℚ) < 2 ^ 1074 := by positivity
  generalize (2 : ℚ) ^ 1074 = u at *
  calc (m * u * 2 : ℚ) < 2 ^ (m.log2 + 1) * u * 2 := by gcongr
    _ = 2 ^ (m.log2 + 1) * 2 * u := by ring
    _ ≤ 10 ^ k := hk

theorem roundsTo_ofDecimal (d : Decimal) : RoundsTo (inUnits d.value) (ofDecimal d) := by
  obtain ⟨m, e⟩ := d
  cases e with
  | ofNat e =>
    have hvalue : Decimal.value ⟨m, .ofNat e⟩ = m * 10 ^ e := by simp [Decimal.value]
    simp only [ofDecimal]
    rw [hvalue]
    split
    · rename_i hm
      apply roundsTo_zero
      simp [hm, inUnits]
    · split
      · rename_i hm he
        exact roundsTo_infinity (units_infinityCode_le (Nat.pos_of_ne_zero hm) he)
      · simpa using roundsTo_nearestCode (m * Decimal.tenTo e) one_pos
  | negSucc k =>
    have hvalue : Decimal.value ⟨m, .negSucc k⟩ = m / 10 ^ (k + 1) := by
      simp [Decimal.value, zpow_negSucc, div_eq_mul_inv]
    simp only [ofDecimal]
    rw [hvalue]
    split
    · rename_i h
      exact roundsTo_zero (inUnits_lt_half h)
    · have hten : 0 < Decimal.tenTo (k + 1) := Nat.pow_pos (by decide)
      simpa using roundsTo_nearestCode m hten

theorem ofDecimal_eq_iff {d : Decimal} {c : ℕ} :
    ofDecimal d = c ↔ RoundsTo (inUnits d.value) c := by
  constructor
  · rintro rfl
    exact roundsTo_ofDecimal d
  · exact fun h => roundsTo_unique (roundsTo_ofDecimal d) h

theorem ofDecimal_congr {d d' : Decimal} (h : d.value = d'.value) : ofDecimal d = ofDecimal d' := by
  rw [ofDecimal_eq_iff, h]
  exact roundsTo_ofDecimal d'

end Binary64

end ReversePolish
