import SetCover.Bits.Word

/-!
# Scanning words

The places of the bits that are set in a word are found from the lowest one on: the lowest bit is
cleared until no bit is left. Taking one from a word clears its lowest bit and sets the bits below,
so the bits that the word and its predecessor share are all but the lowest.

* `setBits`: the places of the bits of a word, smallest first.
* `bitOf_clearLowest`: clearing the lowest bit clears no other.
* `mem_setBits`, `setBits_ascending`: the places that a scan finds, and their order.
-/

namespace SetCover

/-- The place of the lowest bit that is set; 64 for the word without bits. -/
def lowestBit (word : UInt64) : Nat := ((List.range 64).find? (bitOf word)).getD 64

/-- The word with its lowest bit cleared. -/
def clearLowest (word : UInt64) : UInt64 := word &&& (word - 1)

theorem toNat_sub_one {word : UInt64} (h : word ≠ 0) : (word - 1).toNat = word.toNat - 1 := by
  have hpos : word.toNat ≠ 0 := fun hzero => h (UInt64.toNat_inj.mp hzero)
  have hle : (1 : UInt64) ≤ word := by
    rw [UInt64.le_iff_toNat_le]
    show 1 ≤ word.toNat
    omega
  rw [UInt64.toNat_sub_of_le _ _ hle]
  rfl

theorem toNat_clearLowest_lt {word : UInt64} (h : word ≠ 0) :
    (clearLowest word).toNat < word.toNat := by
  have hpos : word.toNat ≠ 0 := fun hzero => h (UInt64.toNat_inj.mp hzero)
  have hle : (clearLowest word).toNat ≤ word.toNat - 1 := by
    rw [clearLowest, UInt64.toNat_and, toNat_sub_one h]
    exact Nat.and_le_right
  omega

/-- The places of the bits that are set, smallest first. -/
def setBits (word : UInt64) : List Nat :=
  if _ : word = 0 then [] else lowestBit word :: setBits (clearLowest word)
termination_by word.toNat
decreasing_by exact toNat_clearLowest_lt ‹_›

/-! ## The lowest bit -/

theorem lowestBit_spec {word : UInt64} (h : word ≠ 0) :
    lowestBit word < 64 ∧ bitOf word (lowestBit word) = true ∧
      ∀ j < lowestBit word, bitOf word j = false := by
  unfold lowestBit
  cases hfind : (List.range 64).find? (bitOf word) with
  | none =>
      refine absurd (eq_of_bitOf fun i hi => ?_) h
      have hnone := List.find?_eq_none.mp hfind i (List.mem_range.mpr hi)
      rw [bitOf_zero hi]
      simpa using hnone
  | some t =>
      obtain ⟨hbit, hlt, hbelow⟩ := List.find?_range_eq_some.mp hfind
      refine ⟨by simpa using hlt, hbit, fun j hj => ?_⟩
      simpa using hbelow j hj

/-- A number whose lowest bit is at `t` has `2 ^ t` as its remainder by twice that. -/
theorem mod_eq_of_lowest {n t : Nat} (hbit : n.testBit t = true)
    (hbelow : ∀ j < t, n.testBit j = false) : n % 2 ^ (t + 1) = 2 ^ t := by
  apply Nat.eq_of_testBit_eq
  intro j
  rw [Nat.testBit_mod_two_pow, Nat.testBit_two_pow]
  by_cases hlt : j < t
  · rw [hbelow j hlt]
    simp
    omega
  · by_cases heq : t = j
    · subst heq
      simp [hbit]
    · simp [heq]
      omega

/-- A number and its predecessor share all bits but the lowest. -/
theorem testBit_and_pred {n t : Nat} (hbit : n.testBit t = true)
    (hbelow : ∀ j < t, n.testBit j = false) (j : Nat) :
    (n &&& (n - 1)).testBit j = (n.testBit j && decide (j ≠ t)) := by
  have hpos : 0 < 2 ^ t := Nat.two_pow_pos t
  have hlt : 2 ^ t < 2 ^ (t + 1) := Nat.pow_lt_pow_right (by decide) (Nat.lt_succ_self t)
  have hn : 2 ^ (t + 1) * (n / 2 ^ (t + 1)) + 2 ^ t = n := by
    rw [← mod_eq_of_lowest hbit hbelow]
    exact Nat.div_add_mod ..
  have hpred : n - 1 = 2 ^ (t + 1) * (n / 2 ^ (t + 1)) + (2 ^ t - 1) := by omega
  have hbits : (n - 1).testBit j =
      if j < t + 1 then decide (j < t) else n.testBit j := by
    rw [hpred, Nat.testBit_two_pow_mul_add _ (by omega), Nat.testBit_two_pow_sub_one]
    split
    · rfl
    · next hj =>
        rw [← hn, Nat.testBit_two_pow_mul_add _ hlt, if_neg hj, hn]
  rw [Nat.testBit_and, hbits]
  rcases Nat.lt_trichotomy j t with hj | rfl | hj
  · simp [hbelow j hj]
  · simp
  · simp [show ¬ j < t + 1 by omega, show j ≠ t by omega]

/-- Clearing the lowest bit clears no other. -/
theorem bitOf_clearLowest {word : UInt64} (h : word ≠ 0) {j : Nat} (hj : j < 64) :
    bitOf (clearLowest word) j = (bitOf word j && decide (j ≠ lowestBit word)) := by
  obtain ⟨hlt, hbit, hbelow⟩ := lowestBit_spec h
  have htest : ∀ (w : UInt64) (i : Nat), i < 64 → bitOf w i = w.toNat.testBit i :=
    fun _ _ hi => bitOf_eq hi
  rw [htest _ _ hj, htest _ _ hj, clearLowest, UInt64.toNat_and, toNat_sub_one h]
  refine testBit_and_pred ?_ (fun i hi => ?_) j
  · rw [← htest _ _ hlt]
    exact hbit
  · rw [← htest _ _ (by omega)]
    exact hbelow i hi

/-! ## The scan -/

theorem mem_setBits {word : UInt64} {i : Nat} :
    i ∈ setBits word ↔ i < 64 ∧ bitOf word i = true := by
  induction word using setBits.induct with
  | case1 =>
      rw [setBits]
      simp +contextual
  | case2 word h ih =>
      obtain ⟨hlt, hbit, hbelow⟩ := lowestBit_spec h
      rw [setBits, dif_neg h, List.mem_cons, ih]
      constructor
      · rintro (rfl | ⟨hi, hcleared⟩)
        · exact ⟨hlt, hbit⟩
        · rw [bitOf_clearLowest h hi, Bool.and_eq_true] at hcleared
          exact ⟨hi, hcleared.1⟩
      · rintro ⟨hi, hset⟩
        by_cases heq : i = lowestBit word
        · exact Or.inl heq
        · refine Or.inr ⟨hi, ?_⟩
          rw [bitOf_clearLowest h hi, hset]
          simpa using heq

theorem setBits_ascending (word : UInt64) : (setBits word).Pairwise (· < ·) := by
  induction word using setBits.induct with
  | case1 =>
      rw [setBits]
      exact List.Pairwise.nil
  | case2 word h ih =>
      obtain ⟨hlt, hbit, hbelow⟩ := lowestBit_spec h
      rw [setBits, dif_neg h]
      refine List.Pairwise.cons (fun i hi => ?_) ih
      obtain ⟨hi, hcleared⟩ := mem_setBits.mp hi
      rw [bitOf_clearLowest h hi, Bool.and_eq_true] at hcleared
      -- below the lowest bit no bit is set, and the lowest one is cleared
      have hne : i ≠ lowestBit word := of_decide_eq_true hcleared.2
      rcases Nat.lt_or_gt_of_ne hne with hlow | hhigh
      · rw [hbelow i hlow] at hcleared
        cases hcleared.1
      · exact hhigh

end SetCover
