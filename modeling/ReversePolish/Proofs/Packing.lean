import Mathlib
import ReversePolish.Binary64.Basic

/-!
# Packing

Core's model of a float is its bit pattern, and each operation unpacks it, computes, and packs the
result. Packing what was unpacked gives a valid pattern back (`pack_unpack`), so a float and its
bits determine each other (`toBits_ofBits`, `ofBits_toBits`), and so do a float that is no NaN and
its sign and code (`code_ofCode`, `negative_ofCode`, `ofCode_code`). There is one NaN
(`eq_nan_of_isNaN`).
-/

namespace ReversePolish.Binary64

open Float.Model

variable {b : BitVec 64}

abbrev signBit (b : BitVec 64) : BitVec 1 := @UnpackedFloat.unpackSign .binary64 b

abbrev exponentBits (b : BitVec 64) : BitVec 11 := @UnpackedFloat.unpackExponent .binary64 b

abbrev significandBits (b : BitVec 64) : BitVec 52 := @UnpackedFloat.unpackMantissa .binary64 b

theorem packComponents_unpack (b : BitVec 64) {E : BitVec 11} {M : BitVec 52}
    (hE : exponentBits b = E) (hM : significandBits b = M) :
    UnpackedFloat.packComponents .binary64
      (UnpackedFloat.Sign.ofBitVec (signBit b)) E M = b := by
  have hs : ∀ v : BitVec 1, (UnpackedFloat.Sign.ofBitVec v).toBitVec = v := by decide
  subst hE hM
  rw [UnpackedFloat.packComponents, hs]
  simp only [UnpackedFloat.unpackSign, UnpackedFloat.unpackExponent, UnpackedFloat.unpackMantissa,
    BitVec.extractLsb]
  ext i hi
  grind

/-- The implicit bit of a significand is its highest. -/
theorem toNat_one_append (v : BitVec 52) : (1#1 ++ v).toNat = 2 ^ 52 + v.toNat := by
  rw [BitVec.toNat_append, ← Nat.shiftLeft_add_eq_or_of_lt v.isLt]
  rfl

theorem pack_unpack (h : Format.binary64.Valid b) :
    UnpackedFloat.pack .binary64 (UnpackedFloat.unpack .binary64 b) = b := by
  have hm : (@UnpackedFloat.unpackMantissa .binary64 b).toNat < 2 ^ 52 := BitVec.isLt _
  have he : (@UnpackedFloat.unpackExponent .binary64 b).toNat < 2 ^ 11 := BitVec.isLt _
  have hbias : ∀ n : Nat, ((n : Int) - (Format.binary64.exponentBias +
      Format.binary64.mantissaBitsWithoutImplicit) + Format.binary64.exponentBias +
      Format.binary64.mantissaBitsWithoutImplicit).toNat = n := by omega
  rw [UnpackedFloat.unpack]
  split
  · rename_i hE
    split
    · rename_i hM
      exact packComponents_unpack b hE hM
    · rename_i hM
      exact (h.eq_packedNaN hE hM).symm
  · rename_i hE
    split
    · rename_i hE0
      split
      · rename_i hM
        exact packComponents_unpack b hE0 hM
      · rename_i hM
        have hne : (@UnpackedFloat.unpackMantissa .binary64 b).toNat ≠ 0 :=
          fun h0 => hM (BitVec.eq_of_toNat_eq (h0.trans rfl))
        have hlog := (Nat.log2_lt hne).2 hm
        rw [UnpackedFloat.pack]
        simp only
        rw [if_neg (by rw [hE0]; decide), if_neg (by simp only [Format.mantissaBits]; omega)]
        exact packComponents_unpack b hE0 (by simp)
    · have hone := toNat_one_append (@UnpackedFloat.unpackMantissa .binary64 b)
      have hlog :
          (2 ^ 52 + (@UnpackedFloat.unpackMantissa .binary64 b).toNat).log2 = 52 := by
        rw [Nat.log2_eq_iff (by omega)]
        omega
      have hne : (@UnpackedFloat.unpackExponent .binary64 b).toNat ≠ 2047 :=
        fun h1 => hE (BitVec.eq_of_toNat_eq (h1.trans rfl))
      rw [UnpackedFloat.pack]
      simp only [hbias]
      rw [if_neg (show ¬2 ^ 11 ≤ _ by omega), if_pos (by rw [hone, hlog]; rfl)]
      refine packComponents_unpack b (by simp) (BitVec.eq_of_toNat_eq ?_)
      rw [hone, BitVec.toNat_ofNat]
      change (@UnpackedFloat.unpackMantissa .binary64 b).toNat = _
      omega

theorem toBits_ofBits {b : UInt64} (h : Format.binary64.Valid b.toBitVec) :
    (Float.ofBits b).toBits = b := by
  simp only [Float.ofBits, Float.toBits, Float.Model.ofBits, Float.Model.pack, pack_unpack h]

theorem ofBits_toBits (x : Float) : Float.ofBits x.toBits = x := by
  obtain ⟨bits, h⟩ := x
  simp only [Float.ofBits, Float.toBits, Float.Model.ofBits, Float.Model.pack, pack_unpack h]

theorem toNat_exponentBits (b : UInt64) :
    (exponentBits b.toBitVec).toNat = b.toNat / 2 ^ 52 % 2 ^ 11 := by
  rw [exponentBits, Float.Model.UnpackedFloat.unpackExponent, BitVec.toNat_cast,
    BitVec.extractLsb_toNat, Nat.shiftRight_eq_div_pow]
  rfl

theorem toNat_significandBits (b : UInt64) :
    (significandBits b.toBitVec).toNat = b.toNat % 2 ^ 52 := by
  rw [significandBits, Float.Model.UnpackedFloat.unpackMantissa, BitVec.toNat_cast,
    BitVec.extractLsb_toNat, Nat.shiftRight_zero]
  rfl

/-- Bits whose code is that of a number or of infinity are valid. -/
theorem valid_of_code_le {b : UInt64} (h : b.toNat % signWeight ≤ infinityCode) :
    Float.Model.Format.binary64.Valid b.toBitVec := by
  refine ⟨fun he hm => absurd (BitVec.eq_of_toNat_eq ?_) hm⟩
  have he := congrArg BitVec.toNat he
  change (exponentBits b.toBitVec).toNat = 2047 at he
  rw [toNat_exponentBits] at he
  change (significandBits b.toBitVec).toNat = 0
  rw [toNat_significandBits]
  simp only [infinityCode, signWeight] at h ⊢
  omega

theorem toNat_toBits_ofCode (s : Bool) {c : Nat} (h : c ≤ infinityCode) :
    (ofCode s c).toBits.toNat = c + if s then signWeight else 0 := by
  have hs : (UInt64.ofNat (c + if s then signWeight else 0)).toNat =
      c + if s then signWeight else 0 := by
    rw [UInt64.toNat_ofNat']
    simp only [infinityCode, signWeight] at h ⊢
    split <;> omega
  rw [ofCode, toBits_ofBits (valid_of_code_le ?_), hs]
  rw [hs]
  simp only [infinityCode, signWeight] at h ⊢
  split <;> omega

theorem code_ofCode (s : Bool) {c : Nat} (h : c ≤ infinityCode) : code (ofCode s c) = c := by
  rw [code, toNat_toBits_ofCode s h]
  simp only [infinityCode, signWeight] at h ⊢
  split <;> omega

theorem negative_ofCode (s : Bool) {c : Nat} (h : c ≤ infinityCode) :
    negative (ofCode s c) = s := by
  rw [negative, toNat_toBits_ofCode s h]
  simp only [infinityCode, signWeight] at h ⊢
  cases s
  · exact decide_eq_false (by simp only [Bool.false_eq_true, if_false]; omega)
  · exact decide_eq_true (by simp only [if_true]; omega)

theorem ofCode_code (x : Float) : ofCode (negative x) (code x) = x := by
  have hlt := x.toBits.toNat_lt
  have hb : UInt64.ofNat (code x + if negative x then signWeight else 0) = x.toBits := by
    rw [← UInt64.toNat_inj, UInt64.toNat_ofNat', code, negative]
    simp only [decide_eq_true_eq]
    unfold signWeight
    split <;> omega
  rw [ofCode, hb, ofBits_toBits]

theorem valid_toBits (x : Float) : Format.binary64.Valid x.toBits.toBitVec := by
  obtain ⟨bits, h⟩ := x
  have hb : Float.toBits ⟨bits, h⟩ = bits := by
    simp only [Float.toBits]
  rw [hb]
  exact h

theorem eq_nan_of_isNaN {x : Float} (h : isNaN x = true) : x = nan := by
  have hcode : infinityCode < x.toBits.toNat % signWeight := of_decide_eq_true h
  simp only [infinityCode, signWeight] at hcode
  have hE : exponentBits x.toBits.toBitVec = -1 := by
    apply BitVec.eq_of_toNat_eq
    rw [toNat_exponentBits]
    change _ = 2047
    omega
  have hM : significandBits x.toBits.toBitVec ≠ 0 := by
    intro h0
    have hzero := congrArg BitVec.toNat h0
    rw [toNat_significandBits] at hzero
    change _ = 0 at hzero
    omega
  have hx : x.toBits = 0x7FF8000000000000 :=
    UInt64.toBitVec_inj.mp ((valid_toBits x).eq_packedNaN hE hM)
  rw [← ofBits_toBits x, hx]
  rfl

end ReversePolish.Binary64
