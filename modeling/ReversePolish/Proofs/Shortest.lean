import ReversePolish.Binary64.Shortest
import ReversePolish.Proofs.Rounding

/-!
# Shortest decimals round back

The numbers in a cell are those that round to its code (`roundsTo_iff_contains`). The search goes
from coarse grids to fine ones and stops at the first with a multiple in the cell. The finest grid
has one in every cell, so the search never fails, and the decimal that it finds has the code that it
was found for (`ofDecimal_shortest`). No coarser grid has one, so no decimal with fewer digits has
that code (`digitCount_shortest_le`).
-/

namespace ReversePolish.Binary64

namespace Cell

theorem ten_pow_sub (a b : ℕ) : (10 : ℚ) ^ (a - b : ℤ) * 10 ^ b = 10 ^ a := by
  rw [zpow_sub₀ (by norm_num), zpow_natCast, zpow_natCast]
  exact div_mul_cancel₀ _ (by positivity)

theorem cast_tenTo (n : ℕ) : (Decimal.tenTo n : ℚ) = 10 ^ n := by
  rw [Decimal.tenTo_eq]
  push_cast
  rfl

theorem cast_step (g : ℕ) : (step g : ℚ) = inUnits (10 ^ g) * 2 := by
  have htwo : (2 : ℚ) ^ 1075 = 2 ^ 1074 * 2 := pow_succ 2 1074
  calc (step g : ℚ) = Decimal.tenTo g * 2 ^ 1075 := cast_shiftLeft _ _
    _ = inUnits (10 ^ g) * 2 := by rw [cast_tenTo, htwo, inUnits, mul_assoc]

/-- So many units of a cell are one unit of floats. -/
def unit : ℚ := 2 * 10 ^ depth

theorem unit_pos : 0 < unit := by
  rw [unit]
  positivity

theorem midpoint_mul_unit (c : ℕ) :
    midpoint c * unit = ((units c + units (c + 1)) * Decimal.tenTo depth : ℕ) := by
  rw [Nat.cast_mul, cast_tenTo, midpoint, unit]
  push_cast
  ring

theorem inUnits_mul_unit (m g : ℕ) :
    inUnits (Decimal.value ⟨m, g - depth⟩) * unit = (m * step g : ℕ) := by
  rw [Nat.cast_mul, cast_step]
  simp only [inUnits, Decimal.value, unit]
  generalize (2 : ℚ) ^ 1074 = u
  rw [← ten_pow_sub g depth]
  ring

theorem contains_iff {cell : Cell} {n : ℕ} :
    cell.contains n = true ↔ cell.lower ≤ n ∧ n ≤ cell.upper ∧
      (cell.lower = n ∨ n = cell.upper → cell.closed = true) := by
  rw [contains]
  split
  · rename_i h
    simp [h]
  · rename_i h
    simp only [Bool.and_eq_true, decide_eq_true_eq, h, Bool.false_eq_true, imp_false]
    omega

theorem contains_of_lt {cell : Cell} {n : ℕ} (hl : cell.lower < n) (hu : n < cell.upper) :
    cell.contains n = true :=
  contains_iff.mpr ⟨hl.le, hu.le, fun h => by omega⟩

variable {c n s : ℕ} {cell : Cell}

section Ends

variable {b : ℕ} {x : ℚ} (hx : x * unit = n)
include hx

theorem midpoint_le_iff : midpoint b ≤ x ↔ (units b + units (b + 1)) * Decimal.tenTo depth ≤ n := by
  rw [← mul_le_mul_iff_left₀ unit_pos, midpoint_mul_unit, hx, Nat.cast_le]

theorem le_midpoint_iff : x ≤ midpoint b ↔ n ≤ (units b + units (b + 1)) * Decimal.tenTo depth := by
  rw [← mul_le_mul_iff_left₀ unit_pos, midpoint_mul_unit, hx, Nat.cast_le]

theorem midpoint_eq_iff : midpoint b = x ↔ (units b + units (b + 1)) * Decimal.tenTo depth = n := by
  rw [← mul_left_inj' unit_pos.ne', midpoint_mul_unit, hx, Nat.cast_inj]

theorem roundsTo_iff_contains (h0 : 0 < c) (hc : c < infinityCode) :
    RoundsTo x c ↔ (ofCode c).contains n = true := by
  obtain ⟨b, rfl⟩ := Nat.exists_eq_succ_of_ne_zero h0.ne'
  have hclosed : (ofCode (b + 1)).closed = true ↔ (b + 1) % 2 = 0 := beq_iff_eq
  rw [contains_iff, hclosed]
  constructor
  · intro h
    obtain ⟨hlower, hleven⟩ := h.above b rfl
    obtain ⟨hupper, hueven⟩ := h.below hc
    refine ⟨(midpoint_le_iff hx).mp hlower, (le_midpoint_iff hx).mp hupper, ?_⟩
    rintro (heq | heq)
    · exact hleven ((midpoint_eq_iff hx).mpr heq)
    · exact hueven ((midpoint_eq_iff hx).mpr heq.symm).symm
  · rintro ⟨hlower, hupper, heven⟩
    refine ⟨hc.le, ?_, fun _ => ⟨(le_midpoint_iff hx).mpr hupper, ?_⟩⟩
    · rintro a ha
      obtain rfl : a = b := Nat.succ.inj ha
      exact ⟨(midpoint_le_iff hx).mpr hlower,
        fun heq => heven (Or.inl ((midpoint_eq_iff hx).mp heq))⟩
    · exact fun heq => heven (Or.inr ((midpoint_eq_iff hx).mp heq.symm).symm)

end Ends

theorem contains_of_multiple? {cell : Cell} {s q : ℕ} (h : cell.multiple? s = some q) :
    cell.contains (q * s) = true := by
  simp only [multiple?] at h
  split at h
  · rename_i hb
    cases h
    simp only [Bool.and_eq_true] at hb
    exact hb.1.2
  · split at h
    · rename_i ha
      cases h
      exact ha
    · cases h

theorem multiple?_ne_none {cell : Cell} {s : ℕ}
    (h : cell.contains ((cell.center / s + 1) * s) = true) : cell.multiple? s ≠ none := by
  simp only [multiple?, h]
  split <;> simp

theorem step_zero_lt : step 0 < Decimal.tenTo depth := by decide +kernel

/-- The step of the finest grid is less than the way from a float to the end of its cell. -/
theorem multiple?_finest (h0 : 0 < c) : (ofCode c).multiple? (step 0) ≠ none := by
  apply multiple?_ne_none
  have hstep : 0 < step 0 := by decide +kernel
  have hbeyond := Nat.lt_mul_div_succ (ofCode c).center hstep
  have hwithin := Nat.mul_div_le (ofCode c).center (step 0)
  have hdown : units (c - 1) < units c := units_strictMono (by omega)
  have hup : units c < units (c + 1) := units_lt_succ c
  have hten := step_zero_lt
  have hlower : (ofCode c).lower ≤ (ofCode c).center :=
    Nat.mul_le_mul_right _ (by omega)
  have hupper : (ofCode c).center + Decimal.tenTo depth ≤ (ofCode c).upper := by
    calc (ofCode c).center + Decimal.tenTo depth
        = (2 * units c + 1) * Decimal.tenTo depth := (Nat.succ_mul _ _).symm
      _ ≤ (ofCode c).upper := Nat.mul_le_mul_right _ (by omega)
  rw [Nat.mul_comm] at hwithin
  rw [Nat.mul_comm] at hbeyond
  rw [Nat.succ_mul] at hbeyond
  apply contains_of_lt
  · rw [Nat.succ_mul]
    exact hlower.trans_lt hbeyond
  · rw [Nat.succ_mul]
    exact (Nat.add_lt_add_of_le_of_lt hwithin hten).trans_le hupper

theorem roundsTo_coarsest (h0 : 0 < c) (hc : c < infinityCode) (g : ℕ) :
    RoundsTo (inUnits ((ofCode c).coarsest g).value) c := by
  induction g with
  | zero =>
    obtain ⟨q, hq⟩ := Option.ne_none_iff_exists'.mp (multiple?_finest h0)
    rw [coarsest, hq, Option.getD_some]
    simpa using (roundsTo_iff_contains (inUnits_mul_unit _ _) h0 hc).mpr (contains_of_multiple? hq)
  | succ g ih =>
    rw [coarsest]
    split
    · rename_i q hq
      exact (roundsTo_iff_contains (inUnits_mul_unit _ _) h0 hc).mpr (contains_of_multiple? hq)
    · exact ih

theorem contains_of_between {k l : ℕ} (hk : cell.contains k = true) (hl : cell.contains l = true)
    (hkn : k ≤ n) (hnl : n ≤ l) : cell.contains n = true := by
  rw [contains_iff] at hk hl ⊢
  obtain ⟨hlower, -, hk⟩ := hk
  obtain ⟨-, hupper, hl⟩ := hl
  refine ⟨hlower.trans hkn, hnl.trans hupper, ?_⟩
  rintro (heq | heq)
  · exact hk (Or.inl (by omega))
  · exact hl (Or.inr (by omega))

theorem tenTo_pos (n : ℕ) : 0 < Decimal.tenTo n := Nat.pow_pos (by decide)

theorem contains_center (h0 : 0 < c) : (ofCode c).contains (ofCode c).center = true := by
  have hten := tenTo_pos depth
  have hdown : units (c - 1) < units c := units_strictMono (by omega)
  have hup : units c < units (c + 1) := units_lt_succ c
  apply contains_of_lt
  · change (units (c - 1) + units c) * Decimal.tenTo depth < 2 * units c * Decimal.tenTo depth
    exact (Nat.mul_lt_mul_right hten).mpr (by omega)
  · change 2 * units c * Decimal.tenTo depth < (units c + units (c + 1)) * Decimal.tenTo depth
    exact (Nat.mul_lt_mul_right hten).mpr (by omega)

theorem multiple?_ne_none_of_below (h0 : 0 < cell.center / s)
    (h : cell.contains (cell.center / s * s) = true) : cell.multiple? s ≠ none := by
  simp only [multiple?, h, h0]
  cases cell.contains ((cell.center / s + 1) * s) <;> simp
  split <;> simp

/-- A grid with a positive multiple in the cell has one next to the center. -/
theorem multiple?_ne_none_of_contains {m : ℕ} (hcenter : cell.contains cell.center = true)
    (hs : 0 < s) (hm : 0 < m) (h : cell.contains (m * s) = true) : cell.multiple? s ≠ none := by
  rcases Nat.lt_or_ge (cell.center / s) m with hlt | hge
  · apply multiple?_ne_none
    apply contains_of_between hcenter h
    · rw [Nat.mul_comm]
      exact (Nat.lt_mul_div_succ cell.center hs).le
    · exact Nat.mul_le_mul_right s hlt
  · apply multiple?_ne_none_of_below (hm.trans_le hge)
    apply contains_of_between h hcenter
    · exact Nat.mul_le_mul_right s hge
    · exact Nat.div_mul_le_self cell.center s

theorem shiftLeft_le_shiftLeft {a b : ℕ} (h : a ≤ b) (k : ℕ) : a <<< k ≤ b <<< k := by
  rw [Nat.shiftLeft_eq, Nat.shiftLeft_eq]
  exact Nat.mul_le_mul_right _ h

theorem lt_shiftLeft_of_shiftRight_lt {a b k : ℕ} (h : a >>> k < b) : a < b <<< k := by
  rw [Nat.shiftRight_eq_div_pow, Nat.div_lt_iff_lt_mul (Nat.pow_pos two_pos)] at h
  rwa [Nat.shiftLeft_eq]

theorem step_pos (g : ℕ) : 0 < step g := Nat.shiftLeft_pos_iff.mpr (tenTo_pos g)

theorem step_mono {g k : ℕ} (h : g ≤ k) : step g ≤ step k :=
  shiftLeft_le_shiftLeft (Nat.pow_le_pow_right (by decide) h) _

theorem upper_lt_step_tooCoarse (cell : Cell) : cell.upper < step cell.tooCoarse := by
  have hpow : ∀ k, 2 ^ (13 * k) ≤ 10 ^ (4 * k) := by
    intro k
    rw [pow_mul, pow_mul]
    exact Nat.pow_le_pow_left (by decide) k
  apply lt_shiftLeft_of_shiftRight_lt
  rw [tooCoarse]
  generalize cell.upper >>> 1075 = u
  calc u < 2 ^ (u.log2 + 1) := Nat.lt_log2_self
    _ ≤ 2 ^ (13 * (u.log2 / 13 + 1)) := Nat.pow_le_pow_right two_pos (by omega)
    _ ≤ 10 ^ (4 * (u.log2 / 13 + 1)) := hpow _

/-- The search stops at no finer grid than one with a positive multiple in the cell. -/
theorem le_exponent_coarsest {m g k : ℕ} (hcenter : cell.contains cell.center = true) (hm : 0 < m)
    (h : cell.contains (m * step g) = true) (hg : g ≤ k) :
    g - depth ≤ (cell.coarsest k).exponent := by
  induction k with
  | zero =>
    obtain rfl := Nat.le_zero.mp hg
    simp [coarsest]
  | succ k ih =>
    rw [coarsest]
    split
    · push_cast
      omega
    · rename_i hnone
      apply ih
      by_contra hlt
      obtain rfl : g = k + 1 := by omega
      exact multiple?_ne_none_of_contains hcenter (step_pos _) hm h hnone

theorem neg_depth_le_exponent_coarsest (cell : Cell) (k : ℕ) :
    -(depth : ℤ) ≤ (cell.coarsest k).exponent := by
  induction k with
  | zero => rfl
  | succ k ih =>
    rw [coarsest]
    split
    · simp only
      omega
    · exact ih

end Cell

variable {c : ℕ} {d : Decimal}

theorem roundsTo_shortest (h0 : 0 < c) (hc : c < infinityCode) :
    RoundsTo (inUnits (shortest c).value) c :=
  Cell.roundsTo_coarsest h0 hc _

theorem ofDecimal_shortest (h0 : 0 < c) (hc : c < infinityCode) : ofDecimal (shortest c) = c :=
  ofDecimal_eq_iff.mpr (roundsTo_shortest h0 hc)

theorem digits_pos_of_roundsTo (h0 : 0 < c) (h : RoundsTo (inUnits d.value) c) : 0 < d.digits := by
  apply Nat.pos_of_ne_zero
  intro hd
  have hzero : RoundsTo (inUnits d.value) 0 := by
    apply roundsTo_zero
    simp [Decimal.value, hd, inUnits]
  exact h0.ne' (roundsTo_unique h hzero)

/-- No decimal on a coarser grid rounds to the code that a decimal was searched for. -/
theorem exponent_le_of_roundsTo (h0 : 0 < c) (hc : c < infinityCode)
    (h : RoundsTo (inUnits d.value) c) : d.exponent ≤ (shortest c).exponent := by
  obtain ⟨m, e⟩ := d
  have hm : 0 < m := digits_pos_of_roundsTo h0 h
  have hleast := (Cell.ofCode c).neg_depth_le_exponent_coarsest (Cell.ofCode c).tooCoarse
  rcases lt_or_ge e (-(Cell.depth : ℤ)) with hlt | hge
  · exact hlt.le.trans hleast
  · obtain ⟨g, rfl⟩ : ∃ g : ℕ, e = g - Cell.depth := ⟨(e + Cell.depth).toNat, by omega⟩
    have hin := (Cell.roundsTo_iff_contains (Cell.inUnits_mul_unit m g) h0 hc).mp h
    refine Cell.le_exponent_coarsest (Cell.contains_center h0) hm hin ?_
    by_contra hcoarse
    have hupper := (Cell.contains_iff.mp hin).2.1
    have hstep : Cell.step g ≤ m * Cell.step g := Nat.le_mul_of_pos_left _ hm
    have hcoarser := Cell.step_mono (not_le.mp hcoarse).le
    have htoo := (Cell.ofCode c).upper_lt_step_tooCoarse
    omega

/-- No decimal with fewer digits rounds to the code that a decimal was searched for: between the two
there would be a power of ten, which is on a coarser grid. -/
theorem digitCount_shortest_le (h0 : 0 < c) (hc : c < infinityCode)
    (h : RoundsTo (inUnits d.value) c) :
    Decimal.digitCount (shortest c).digits ≤ Decimal.digitCount d.digits := by
  have hk : 0 < Decimal.digitCount d.digits := Nat.length_toDigits_pos
  have hexp := exponent_le_of_roundsTo h0 hc h
  by_contra hlt
  have hfew : d.digits < 10 ^ Decimal.digitCount d.digits :=
    (Nat.length_toDigits_le_iff (by decide) hk).mp le_rfl
  have hmany : 10 ^ Decimal.digitCount d.digits ≤ (shortest c).digits :=
    not_lt.mp fun hlt' => hlt ((Nat.length_toDigits_le_iff (by decide) hk).mpr hlt')
  generalize Decimal.digitCount d.digits = k at *
  have hten : RoundsTo (inUnits (Decimal.value ⟨1, k + (shortest c).exponent⟩)) c := by
    refine h.of_between (roundsTo_shortest h0 hc) ?_ ?_
    · rw [inUnits_le_inUnits, Decimal.value_one]
      have hlt : d.value < 10 ^ (k + d.exponent) :=
        not_le.mp fun hle => hfew.not_ge (Decimal.pow_le_value_iff.mp hle)
      exact hlt.le.trans (zpow_le_zpow_right₀ (by norm_num) (by omega))
    · rw [inUnits_le_inUnits, Decimal.value_one]
      exact Decimal.pow_le_value_iff.mpr hmany
  have hcoarse := exponent_le_of_roundsTo h0 hc hten
  simp only at hcoarse
  omega

end ReversePolish.Binary64
