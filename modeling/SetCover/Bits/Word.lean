import SetCover.Arithmetic

/-!
# The bits of words

The bits of a word of 64 bits count from the lowest one. This module has the words that serve as
masks, and says what the operations on words do to their bits.

* `bitOf_eq`: the bits of a word are the binary digits of its number; `eq_of_bitOf` says that they
  determine it.
* `bitOf_or`, `bitOf_and`, `bitOf_xor`, `bitOf_not`: bit by bit.
* `bitOf_oneBit`, `bitOf_lowBits`: the bits of masks.
* `sum_countBits`: counting the bits of words one word after another counts them all.
-/

namespace SetCover

/-- Bit `i` of a word. -/
def bitOf (word : UInt64) (i : Nat) : Bool := (word >>> i.toUInt64) &&& 1 == 1

/-- The word whose only bit is bit `i`. -/
def oneBit (i : Nat) : UInt64 := 1 <<< i.toUInt64

/-- The word with its lowest `count` bits set; all of them for 64 and more. -/
def lowBits (count : Nat) : UInt64 :=
  if count < 64 then (1 <<< count.toUInt64) - 1 else 0xffffffffffffffff

/-- The number of bits that are set. -/
def countBits (word : UInt64) : Nat := (List.range 64).countP (bitOf word)

/-! ## What operations do to bits -/

/-- The bits of a word are the binary digits of its number. -/
theorem bitOf_eq {word : UInt64} {i : Nat} (hi : i < 64) :
    bitOf word i = word.toBitVec.getLsbD i := by
  have hshift : (word >>> i.toUInt64).toNat = word.toNat / 2 ^ i := by
    rw [UInt64.toNat_shiftRight, Nat.shiftRight_eq_div_pow]
    congr 2
    show i % 2 ^ 64 % 64 = i
    omega
  have hbit : word.toBitVec.getLsbD i = decide (word.toNat / 2 ^ i % 2 = 1) :=
    Nat.testBit_eq_decide_div_mod_eq
  rw [hbit, bitOf, Bool.eq_iff_iff]
  simp only [beq_iff_eq, decide_eq_true_eq, ← UInt64.toNat_inj, UInt64.toNat_and, hshift]
  rw [show (1 : UInt64).toNat = 1 from rfl, Nat.and_one_is_mod]

@[simp] theorem bitOf_zero {i : Nat} (hi : i < 64) : bitOf 0 i = false := by
  simp [bitOf_eq hi]

/-- Words with the same bits are the same. -/
theorem eq_of_bitOf {v w : UInt64} (h : ∀ i < 64, bitOf v i = bitOf w i) : v = w := by
  apply UInt64.toBitVec_inj.mp
  apply BitVec.eq_of_getLsbD_eq
  intro i hi
  rw [← bitOf_eq hi, ← bitOf_eq hi, h i hi]

theorem bitOf_or {v w : UInt64} {i : Nat} (hi : i < 64) :
    bitOf (v ||| w) i = (bitOf v i || bitOf w i) := by
  simp [bitOf_eq hi]

theorem bitOf_and {v w : UInt64} {i : Nat} (hi : i < 64) :
    bitOf (v &&& w) i = (bitOf v i && bitOf w i) := by
  simp [bitOf_eq hi]

theorem bitOf_xor {v w : UInt64} {i : Nat} (hi : i < 64) :
    bitOf (v ^^^ w) i = (bitOf v i ^^ bitOf w i) := by
  simp [bitOf_eq hi]

theorem bitOf_not {w : UInt64} {i : Nat} (hi : i < 64) : bitOf (~~~w) i = !bitOf w i := by
  simp [bitOf_eq hi, hi]

theorem bitOf_oneBit {i j : Nat} (hi : i < 64) (hj : j < 64) :
    bitOf (oneBit i) j = decide (i = j) := by
  have hone : (oneBit i).toNat = 2 ^ i := by
    have hmod : i.toUInt64.toNat % 64 = i := by
      show i % 2 ^ 64 % 64 = i
      omega
    rw [oneBit, UInt64.toNat_shiftLeft, hmod, Nat.shiftLeft_eq]
    exact (congrArg (· % 2 ^ 64) (Nat.one_mul _)).trans
      (Nat.mod_eq_of_lt (Nat.pow_lt_pow_right (by decide) hi))
  rw [bitOf_eq hj]
  show (oneBit i).toNat.testBit j = _
  rw [hone, Nat.testBit_two_pow]

theorem bitOf_lowBits {count j : Nat} (hj : j < 64) :
    bitOf (lowBits count) j = decide (j < count) := by
  rw [bitOf_eq hj]
  show (lowBits count).toNat.testBit j = _
  unfold lowBits
  split
  · next hcount =>
      have hmod : count.toUInt64.toNat % 64 = count := by
        show count % 2 ^ 64 % 64 = count
        omega
      have hpow : 2 ^ count < 2 ^ 64 := Nat.pow_lt_pow_right (by decide) hcount
      have hshift : ((1 : UInt64) <<< count.toUInt64).toNat = 2 ^ count := by
        rw [UInt64.toNat_shiftLeft, hmod, Nat.shiftLeft_eq]
        exact (congrArg (· % 2 ^ 64) (Nat.one_mul _)).trans (Nat.mod_eq_of_lt hpow)
      have hle : (1 : UInt64) ≤ 1 <<< count.toUInt64 := by
        rw [UInt64.le_iff_toNat_le, hshift]
        exact Nat.two_pow_pos count
      rw [UInt64.toNat_sub_of_le _ _ hle, hshift]
      exact Nat.testBit_two_pow_sub_one ..
  · next hcount =>
      rw [show (0xffffffffffffffff : UInt64).toNat = 2 ^ 64 - 1 by decide,
        Nat.testBit_two_pow_sub_one]
      simp only [decide_eq_decide]
      omega

/-! ## Counting -/

theorem sum_countBits (words : List UInt64) :
    (words.map countBits).sum =
      (List.range (words.length * 64)).countP fun i =>
        bitOf (words[i / 64]?.getD 0) (i % 64) := by
  induction words with
  | nil => rfl
  | cons w words ih =>
      have hlength : (w :: words).length * 64 = 64 + words.length * 64 := by
        rw [List.length_cons]
        omega
      have hfirst : countBits w = (List.range 64).countP fun i =>
          bitOf ((w :: words)[i / 64]?.getD 0) (i % 64) := by
        refine List.countP_congr fun i hi => ?_
        have hi := List.mem_range.1 hi
        rw [show i / 64 = 0 by omega, show i % 64 = i by omega]
        rfl
      have hrest : (List.range (words.length * 64)).countP
          (fun i => bitOf (words[i / 64]?.getD 0) (i % 64)) =
            (List.range (words.length * 64)).countP
              ((fun i => bitOf ((w :: words)[i / 64]?.getD 0) (i % 64)) ∘ (64 + ·)) := by
        refine List.countP_congr fun i _ => ?_
        rw [Function.comp_apply, show (64 + i) / 64 = i / 64 + 1 by omega,
          show (64 + i) % 64 = i % 64 by omega, List.getElem?_cons_succ]
      rw [List.map_cons, List.sum_cons, ih, hlength, List.range_add, List.countP_append,
        List.countP_map, hfirst, hrest]

end SetCover
