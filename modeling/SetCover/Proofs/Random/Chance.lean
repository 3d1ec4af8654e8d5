import Mathlib
import SetCover.Proofs.Number.Comparison
import SetCover.Random.Chance

/-!
# Chances of numbers from zero to one

A number that compares as at least zero and at most one has a chance. A comparison looks at the
parts of a number as the standard for floating-point numbers has them, so those are matched with
the parts in binary first.

* `Binary.ofBits?_of_finite`, `Binary.ofBits?_of_zero`: the parts of a number.
* `Chance.exists_share`: how many words a number from zero to one stands for: some, unless it is
  less than the share of one word, and not all, unless it is one.
* `Chance.exists_of_unit`: a number from zero to one has a chance.
* `Chance.exists_between`: numbers whose chance may fall out either way.
-/

namespace SetCover

open Float.Model (UnpackedFloat Format)

/-! ## The parts of a number -/

namespace Binary

variable {bits : UInt64} {sign : UnpackedFloat.Sign}

theorem toNat_unpackMantissa :
    (@UnpackedFloat.unpackMantissa .binary64 bits.toBitVec).toNat =
      bits.toNat % 2 ^ 52 := by
  simp [UnpackedFloat.unpackMantissa]

theorem toNat_unpackExponent :
    (@UnpackedFloat.unpackExponent .binary64 bits.toBitVec).toNat =
      bits.toNat / 2 ^ 52 % 2 ^ 11 := by
  simp [UnpackedFloat.unpackExponent, Nat.shiftRight_eq_div_pow]

theorem ofBitVec_unpackSign :
    UnpackedFloat.Sign.ofBitVec (@UnpackedFloat.unpackSign .binary64 bits.toBitVec) =
      if bits.toNat.testBit 63 then .negative else .positive := by
  have hsign : (@UnpackedFloat.unpackSign .binary64 bits.toBitVec).toNat =
      bits.toNat / 2 ^ 63 % 2 := by
    simp [UnpackedFloat.unpackSign, Nat.shiftRight_eq_div_pow]
  unfold UnpackedFloat.Sign.ofBitVec
  simp only [← BitVec.toNat_inj, hsign, Nat.testBit_eq_decide_div_mod_eq]
  rcases Nat.mod_two_eq_zero_or_one (bits.toNat / 2 ^ 63) with h | h
  · rw [h]
    rfl
  · rw [h]
    rfl

theorem ofBits?_of_zero (h : UnpackedFloat.unpack .binary64 bits.toBitVec = .zero sign) :
    ofBits? bits = some ⟨bits.toNat.testBit 63, 0, -1074⟩ := by
  unfold UnpackedFloat.unpack at h
  dsimp only at h
  split at h
  · split at h
    · cases h
    · cases h
  · split at h
    · next hexponent =>
        split at h
        · next hmantissa =>
            have hbiased : bits.toNat / 2 ^ 52 % 2 ^ 11 = 0 :=
              toNat_unpackExponent.symm.trans (congrArg BitVec.toNat hexponent)
            have hfraction : bits.toNat % 2 ^ 52 = 0 :=
              toNat_unpackMantissa.symm.trans (congrArg BitVec.toNat hmantissa)
            simp only [ofBits?, hbiased, hfraction]
            rfl
        · cases h
    · cases h

theorem ofBits?_of_finite {mantissa : Nat} {exponent : Int} {hpos : 0 < mantissa}
    (h : UnpackedFloat.unpack .binary64 bits.toBitVec = .finite sign mantissa exponent hpos) :
    mantissa < 2 ^ 53 ∧ (exponent = -1074 ∨ 2 ^ 52 ≤ mantissa) ∧
      (sign = .positive ↔ bits.toNat.testBit 63 = false) ∧
      ofBits? bits = some ⟨bits.toNat.testBit 63, mantissa, exponent⟩ := by
  have hlt : bits.toNat % 2 ^ 52 < 2 ^ 52 := Nat.mod_lt _ (by decide)
  have hsign : UnpackedFloat.Sign.ofBitVec
      (@UnpackedFloat.unpackSign .binary64 bits.toBitVec) = .positive ↔
        bits.toNat.testBit 63 = false := by
    rw [ofBitVec_unpackSign]
    cases bits.toNat.testBit 63 with
    | false => simp
    | true => simp
  unfold UnpackedFloat.unpack at h
  dsimp only at h
  split at h
  · split at h
    · cases h
    · cases h
  · next hspecial =>
      have hbiased : bits.toNat / 2 ^ 52 % 2 ^ 11 ≠ 2 ^ 11 - 1 := by
        intro heq
        refine hspecial (BitVec.eq_of_toNat_eq ?_)
        rw [toNat_unpackExponent, heq]
        rfl
      split at h
      · next hexponent =>
          have hzero : bits.toNat / 2 ^ 52 % 2 ^ 11 = 0 :=
            toNat_unpackExponent.symm.trans (congrArg BitVec.toNat hexponent)
          split at h
          · cases h
          · cases h
            rw [toNat_unpackMantissa, toNat_unpackExponent, hzero]
            refine ⟨by omega, Or.inl rfl, hsign, ?_⟩
            simp only [ofBits?, hzero]
            rfl
      · next hexponent =>
          have hzero : bits.toNat / 2 ^ 52 % 2 ^ 11 ≠ 0 := by
            intro heq
            refine hexponent (BitVec.eq_of_toNat_eq ?_)
            rw [toNat_unpackExponent, heq]
            rfl
          cases h
          have happend : (1#1 ++ @UnpackedFloat.unpackMantissa .binary64
              bits.toBitVec).toNat = 2 ^ 52 + bits.toNat % 2 ^ 52 := by
            rw [BitVec.toNat_append, toNat_unpackMantissa, ← Nat.shiftLeft_add_eq_or_of_lt hlt]
            rfl
          rw [happend, toNat_unpackExponent]
          refine ⟨by omega, Or.inr (Nat.le_add_right _ _), hsign, ?_⟩
          simp only [ofBits?, if_neg hbiased, if_neg hzero]
          rfl

/-- A number of at most 53 bits below one, or one, has no more than all words. -/
theorem floorScaled_le {b : Binary} (hmantissa : b.mantissa < 2 ^ 53)
    (hunit : b.exponent < -52 ∨ b.exponent = -52 ∧ b.mantissa ≤ 2 ^ 52) :
    b.floorScaled 64 ≤ 2 ^ 64 := by
  have hdiv : b.floorScaled 64 ≤ b.mantissa * 2 ^ (b.exponent + 64).toNat := Nat.div_le_self ..
  refine Nat.le_trans hdiv ?_
  rcases hunit with hbelow | ⟨hone, hle⟩
  · calc b.mantissa * 2 ^ (b.exponent + 64).toNat
        ≤ 2 ^ 53 * 2 ^ 11 := Nat.mul_le_mul (Nat.le_of_lt hmantissa)
          (Nat.pow_le_pow_right (by decide) (by omega))
      _ = 2 ^ 64 := by decide
  · calc b.mantissa * 2 ^ (b.exponent + 64).toNat
        ≤ 2 ^ 52 * 2 ^ 12 := Nat.mul_le_mul hle
          (Nat.pow_le_pow_right (by decide) (by omega))
      _ = 2 ^ 64 := by decide

/-- A number has a share of at least one word from `2 ^ 52 * 2 ^ (-116)` on. -/
theorem floorScaled_pos_iff {b : Binary} (hmantissa : b.mantissa < 2 ^ 53)
    (hnormal : b.exponent = -1074 ∨ 2 ^ 52 ≤ b.mantissa) :
    0 < b.floorScaled 64 ↔ -116 < b.exponent ∨ -116 = b.exponent ∧ 2 ^ 52 ≤ b.mantissa := by
  have hdiv : 0 < b.floorScaled 64 ↔
      2 ^ (-(b.exponent + 64)).toNat ≤ b.mantissa * 2 ^ (b.exponent + 64).toNat := by
    rw [floorScaled, Nat.div_pos_iff]
    exact and_iff_right (Nat.two_pow_pos _)
  rw [hdiv]
  rcases Int.lt_trichotomy b.exponent (-116) with hlt | heq | hgt
  · have hpow : 2 ^ 53 ≤ 2 ^ (-(b.exponent + 64)).toNat :=
      Nat.pow_le_pow_right (by decide) (by omega)
    rw [show (b.exponent + 64).toNat = 0 by omega]
    omega
  · rw [heq, show (-(-116 + 64 : Int)).toNat = 52 by decide,
      show (-116 + 64 : Int).toNat = 0 by decide]
    omega
  · have hpow : 2 ^ (-(b.exponent + 64)).toNat ≤ 2 ^ 52 :=
      Nat.pow_le_pow_right (by decide) (by omega)
    have hscaled : b.mantissa ≤ b.mantissa * 2 ^ (b.exponent + 64).toNat :=
      Nat.le_mul_of_pos_right _ (Nat.two_pow_pos _)
    omega

/-- A number up to one has a share of all words only if it is one. -/
theorem floorScaled_lt_iff {b : Binary} (hmantissa : b.mantissa < 2 ^ 53)
    (hunit : b.exponent < -52 ∨ b.exponent = -52 ∧ b.mantissa ≤ 2 ^ 52) :
    b.floorScaled 64 < 2 ^ 64 ↔ b.exponent < -52 ∨ b.exponent = -52 ∧ b.mantissa < 2 ^ 52 := by
  rcases hunit with hbelow | ⟨hone, hle⟩
  · have hdiv : b.floorScaled 64 ≤ b.mantissa * 2 ^ (b.exponent + 64).toNat := Nat.div_le_self ..
    have hpow : 2 ^ (b.exponent + 64).toNat ≤ 2 ^ 11 :=
      Nat.pow_le_pow_right (by decide) (by omega)
    have hscaled : b.mantissa * 2 ^ (b.exponent + 64).toNat ≤ (2 ^ 53 - 1) * 2 ^ 11 :=
      Nat.mul_le_mul (by omega) hpow
    omega
  · have hscaled : b.floorScaled 64 = b.mantissa * 2 ^ 12 / 2 ^ 0 := by
      rw [floorScaled, hone]
      rfl
    omega

end Binary

/-! ## Numbers from zero to one -/

namespace Chance

/-- The share of one word. -/
def oneWord : Float := 1.0 / 18446744073709551616.0

theorem unpack_oneWord :
    oneWord.toModel.unpack = .finite .positive (2 ^ 52) (-116) (by decide) := by
  rfl

theorem unpack_one :
    (1.0 : Float).toModel.unpack = .finite .positive (2 ^ 52) (-52) (by decide) := by
  rfl

theorem ofFloat?_eq_some {p : Float} {b : Binary} (hb : Binary.ofFloat? p = some b)
    (hsign : b.negative = false ∨ b.mantissa = 0) (hwords : b.floorScaled 64 ≤ 2 ^ 64) :
    ofFloat? p = some ⟨b.floorScaled 64, hwords⟩ := by
  have hnonneg : ¬ (b.negative = true ∧ b.mantissa ≠ 0) := by
    rintro ⟨hnegative, hne⟩
    rcases hsign with hpositive | hzero
    · rw [hpositive] at hnegative
      cases hnegative
    · exact hne hzero
  unfold ofFloat?
  rw [hb]
  dsimp only
  rw [if_neg hnonneg, dif_pos hwords]

/-- A number that compares as at least zero and at most one has a chance, which some words favour
from the share of one word on, and not all words below one. -/
theorem exists_share {p : Float} (hlow : 0.0 ≤ p) (hhigh : p ≤ 1.0) :
    ∃ c, ofFloat? p = some c ∧ (0 < c.words ↔ oneWord ≤ p) ∧ (c.words < 2 ^ 64 ↔ p < 1.0) := by
  have hlow : UnpackedFloat.le (.zero .positive) p.toModel.unpack = true :=
    of_decide_eq_true (p := (0.0 : Float).toModel ≤ p.toModel) hlow
  cases hp : p.toModel.unpack with
  | infinity sign =>
      cases sign with
      | negative =>
          rw [hp] at hlow
          cases hlow
      | positive =>
          obtain ⟨o, ho, hle⟩ := Comparison.le_iff_compare.mp hhigh
          rw [hp, unpack_one] at ho
          cases ho
          cases hle
  | notANumber =>
      rw [hp] at hlow
      cases hlow
  | zero sign =>
      obtain ⟨b, hb, hmantissa⟩ : ∃ b, Binary.ofFloat? p = some b ∧ b.mantissa = 0 :=
        ⟨_, Binary.ofBits?_of_zero hp, rfl⟩
      have hzero : b.floorScaled 64 = 0 := by
        rw [Binary.floorScaled, hmantissa, Nat.zero_mul, Nat.zero_div]
      refine ⟨_, ofFloat?_eq_some hb (Or.inr hmantissa) (hzero ▸ Nat.zero_le _), ?_, ?_⟩
      · rw [Comparison.le_iff_compare, hp, unpack_oneWord]
        simp [hzero, UnpackedFloat.compare]
      · rw [Comparison.lt_iff_compare, hp, unpack_one]
        simp [hzero, UnpackedFloat.compare]
  | finite sign mantissa exponent hpos =>
      cases sign with
      | negative =>
          rw [hp] at hlow
          cases hlow
      | positive =>
          obtain ⟨hmantissa, hnormal, hsign, hbits⟩ := Binary.ofBits?_of_finite hp
          have hunit := (Comparison.le_iff_of_finite hp unpack_one).mp hhigh
          refine ⟨_, ofFloat?_eq_some hbits (Or.inl (hsign.mp rfl))
            (Binary.floorScaled_le hmantissa hunit), ?_, ?_⟩
          · exact (Binary.floorScaled_pos_iff hmantissa hnormal).trans
              (Comparison.le_iff_of_finite unpack_oneWord hp).symm
          · exact (Binary.floorScaled_lt_iff hmantissa hunit).trans
              (Comparison.lt_iff_of_finite hp unpack_one).symm

theorem exists_of_unit {p : Float} (h : (0.0 ≤ p && p ≤ 1.0) = true) :
    ∃ c, ofFloat? p = some c := by
  rw [Bool.and_eq_true, decide_eq_true_eq, decide_eq_true_eq] at h
  obtain ⟨c, hc, _⟩ := exists_share h.1 h.2
  exact ⟨c, hc⟩

theorem unpack_zero : (0.0 : Float).toModel.unpack = .zero .positive := by
  rfl

/-- A number from the share of one word on, and below one, has a chance that some words favour, but
not all of them. -/
theorem exists_between {p : Float} (hlow : oneWord ≤ p) (hhigh : p < 1.0) :
    ∃ c, ofFloat? p = some c ∧ 0 < c.words ∧ c.words < 2 ^ 64 := by
  have hzero : 0.0 ≤ p := by
    rw [Comparison.le_iff_compare, unpack_oneWord] at hlow
    rw [Comparison.le_iff_compare, unpack_zero]
    obtain ⟨o, ho, hle⟩ := hlow
    cases hp : p.toModel.unpack with
    | notANumber =>
        rw [hp] at ho
        cases ho
    | infinity sign | zero sign | finite sign =>
        rw [hp] at ho
        cases sign with
        | positive => exact ⟨_, rfl, rfl⟩
        | negative =>
            cases ho
            cases hle
  have hone : p ≤ 1.0 := Comparison.le_iff_compare.mpr ⟨_, Comparison.lt_iff_compare.mp hhigh, rfl⟩
  obtain ⟨c, hc, hsome, hnotAll⟩ := exists_share hzero hone
  exact ⟨c, hc, hsome.mpr hlow, hnotAll.mpr hhigh⟩

end Chance

end SetCover
