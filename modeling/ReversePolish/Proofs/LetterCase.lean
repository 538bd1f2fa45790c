import ReversePolish.Numeral
import ReversePolish.Text.Fold

/-!
# Letter case and ASCII

The lower case of a capital letter in ASCII is 32 code points further, and every other character is
its own. Lower case that reaches ASCII from elsewhere comes from two characters only, and no case
moves a sign.
-/

namespace ReversePolish

namespace Text

theorem toLower_cases (c : Char) :
    c.toLower = c ∨ 65 ≤ c.toNat ∧ c.toNat ≤ 90 ∧ c.toLower.toNat = c.toNat + 32 := by
  by_cases h : 65 ≤ c.toNat ∧ c.toNat ≤ 90
  · refine Or.inr ⟨h.1, h.2, ?_⟩
    have hv : c.val ≥ 'A'.val ∧ c.val ≤ 'Z'.val := by
      simpa [UInt32.le_iff_toNat_le] using h
    have hlower : c.toLower.toNat = (c.val + ('a'.val - 'A'.val)).toNat :=
      congrArg Char.toNat (dif_pos hv)
    have hsum : (c.val + ('a'.val - 'A'.val)).toNat = (c.toNat + 32) % 2 ^ 32 :=
      UInt32.toNat_add _ _
    omega
  · refine Or.inl (dif_neg ?_)
    simpa [UInt32.le_iff_toNat_le] using h

theorem eq_of_toLower_eq {c d : Char} (h : c.toLower = d) (hd : d.toNat < 97) : c = d := by
  rcases toLower_cases c with hc | ⟨hlo, -, hc⟩
  · rw [← hc, h]
  · rw [h] at hc
    omega

theorem toNat_lt_of_toLower {c : Char} (h : c.toLower.toNat < 128) : c.toNat < 128 := by
  rcases toLower_cases c with hc | ⟨-, hhi, -⟩
  · rwa [hc] at h
  · omega

theorem mem_fold {s : List Char} {c d : Char} (hc : c ∈ s) (hd : d ∈ lowerCase c) : d ∈ fold s :=
  List.mem_flatMap.mpr ⟨c, hc, hd⟩

/-- Only two characters outside ASCII have a letter of ASCII in their lower case. -/
theorem fold_eq_map {s : List Char} (hk : '\u212A' ∉ s) (hdot : '\u0130' ∉ s) :
    fold s = s.map Char.toLower := by
  have hone : ∀ c ∈ s, lowerCase c = [c.toLower] := by
    intro c hc
    rw [lowerCase, if_neg, if_neg]
    · rintro rfl
      exact hdot hc
    · rintro rfl
      exact hk hc
  rw [fold, List.flatMap_def, List.map_congr_left hone, ← List.flatMap_def]
  exact List.map_eq_flatMap.symm

end Text

namespace Numeral

theorem splitSign_map_toLower (s : List Char) :
    splitSign (s.map Char.toLower) = ((splitSign s).1, (splitSign s).2.map Char.toLower) := by
  unfold splitSign
  split
  · rename_i t h
    obtain ⟨c, u, rfl, hc, rfl⟩ := List.map_eq_cons_iff.mp h
    rw [Text.eq_of_toLower_eq hc (by decide)]
    rfl
  · rename_i t h
    obtain ⟨c, u, rfl, hc, rfl⟩ := List.map_eq_cons_iff.mp h
    rw [Text.eq_of_toLower_eq hc (by decide)]
    rfl
  · rename_i hm hp
    split
    · rename_i t
      exact absurd rfl (hm (t.map Char.toLower))
    · rename_i t
      exact absurd rfl (hp (t.map Char.toLower))
    · rfl

end Numeral

end ReversePolish
