import SetCover.Bits.Membership

/-!
# Counting bits

What is read off the words of a bit vector as a whole.

* `ones_eq`: a scan finds the places that are stored as one, in order.
* `mem_ones`: the ones of a clean vector are its members.
* `toIds_of_ofIds?`: the ids below the width are read back from their vector.
* `count_eq`: the count of a vector is the number of its ones.
* `distance_eq`: the distance of two vectors is the number of places where they differ.
-/

namespace SetCover

namespace Bits

variable {size : Nat}

theorem lt_of_stored {b : Bits size} {i : Nat} (h : b.stored i = true) : i < size * 64 := by
  by_cases hw : i / 64 < size
  · omega
  · have hnone : b.words[i / 64]? = none := by
      rw [Vector.getElem?_eq_none_iff]
      omega
    simp [stored, hnone, bitOf_zero (show i % 64 < 64 by omega)] at h

/-- A scan over the words finds the stored ones. -/
theorem mem_ones_iff {b : Bits size} {i : Nat} : i ∈ b.ones ↔ b.stored i = true := by
  have hword : ∀ w k, (w, k) ∈ b.words.toList.zipIdx ↔ b.words[k]? = some w := by
    intro w k
    rw [List.mem_zipIdx_iff_getElem?, Vector.getElem?_toList]
  rw [ones, List.mem_flatMap]
  constructor
  · rintro ⟨⟨w, k⟩, hmem, hi⟩
    obtain ⟨j, hj, rfl⟩ := List.mem_map.mp hi
    obtain ⟨hlt, hbit⟩ := mem_setBits.mp hj
    rw [stored, show (64 * k + j) / 64 = k by omega, show (64 * k + j) % 64 = j by omega,
      (hword w k).mp hmem]
    exact hbit
  · intro h
    have hw : i / 64 < size := by
      have := lt_of_stored h
      omega
    have hget : b.words[i / 64]? = some b.words[i / 64] := Vector.getElem?_eq_getElem hw
    rw [stored, hget] at h
    refine ⟨(b.words[i / 64], i / 64), (hword ..).mpr hget, List.mem_map.mpr ⟨i % 64, ?_, ?_⟩⟩
    · exact mem_setBits.mpr ⟨Nat.mod_lt i (by decide), h⟩
    · exact Nat.div_add_mod i 64

/-- The ones are the places stored as one, in order. -/
theorem ones_eq (b : Bits size) : b.ones = (List.range (size * 64)).filter b.stored := by
  refine IdSet.eq_of_mem_iff b.ones_ascending (List.pairwise_lt_range.filter _) fun i => ?_
  rw [mem_ones_iff, List.mem_filter, List.mem_range]
  exact ⟨fun h => ⟨lt_of_stored h, h⟩, fun h => h.2⟩

/-- The ones of a clean vector are its members. -/
theorem mem_ones {b : Bits size} (h : b.Clean) {i : Nat} : i ∈ b.ones ↔ b.get i = true := by
  rw [mem_ones_iff, h.stored_eq]

/-- The ids below the width are read back from their vector. -/
theorem toIds_of_ofIds? {ids : IdSet} {width : Nat} {b : Bits size}
    (h : ofIds? size ids width = .ok b) : b.toIds = ids.filter (· < width) := by
  obtain ⟨_, hclean, hget⟩ := get_of_ofIds? h
  apply IdSet.ext_mem
  intro id
  have hmem : id ∈ b.toIds ↔ b.get id = true := mem_ones hclean
  rw [hmem, hget, Bool.and_eq_true, IdSet.contains_iff, IdSet.mem_filter]

/-- The count of a vector is the number of its ones. -/
theorem count_eq (b : Bits size) : b.count = b.ones.length := by
  rw [count, sum_countBits, ones_eq, ← List.countP_eq_length_filter, Vector.length_toList]
  refine List.countP_congr fun i _ => ?_
  rw [stored, ← Vector.getElem?_toList]

/-- The distance of two vectors is the number of places where their stored bits differ. -/
theorem distance_eq (a b : Bits size) :
    a.distance b = (List.range (size * 64)).countP fun i => a.stored i != b.stored i := by
  have hmap : List.zipWith (fun v w => countBits (v ^^^ w)) a.words.toList b.words.toList =
      (List.zipWith (· ^^^ ·) a.words.toList b.words.toList).map countBits := by
    rw [List.map_zipWith]
  rw [distance, hmap, sum_countBits, List.length_zipWith, Vector.length_toList,
    Vector.length_toList, Nat.min_self]
  refine List.countP_congr fun i hi => ?_
  have hi : i / 64 < size := by
    have := List.mem_range.1 hi
    omega
  simp only [stored, List.getElem?_zipWith, Vector.getElem?_toList,
    Vector.getElem?_eq_getElem hi, Option.getD_some]
  rw [bitOf_xor (show i % 64 < 64 by omega)]

end Bits

end SetCover
