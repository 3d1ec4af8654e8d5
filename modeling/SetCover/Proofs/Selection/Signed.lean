import SetCover.Proofs.Swap.Neighbours

/-!
# Costs read with a sign

Costs are numbers of 64 bits, and their difference is taken of their signed readings. That agrees
with the order of the costs as long as both are read with the same sign. For two covers one swap
apart whose difference is a signed number of 64 bits, the signs are the same unless the swap
exchanges a subset that is so dear that it alone is read with a minus.

* `IdSet.OneSwapApart.weight_le`: what one swap can add to a cost.
* `Selection.large_iff_iff`: when the costs of two covers are read with the same sign.
-/

namespace SetCover

variable {inst : Instance} {s t : Selection} {ids ids' : IdSet}

/-! ## One swap -/

theorem IdSet.OneSwapApart.symm (h : ids.OneSwapApart ids') : ids'.OneSwapApart ids :=
  ⟨h.2, h.1⟩

/-- What one swap adds to the weight is at most the cost of a subset that comes in. -/
theorem IdSet.OneSwapApart.weight_le (h : ids.OneSwapApart ids') :
    inst.weight ids'.toList ≤ inst.weight ids.toList ∨
      ∃ a ∈ ids', a ∉ ids ∧
        inst.weight ids'.toList ≤ inst.weight ids.toList + inst.costAt a := by
  by_cases hnew : ∃ a ∈ ids', a ∉ ids
  · obtain ⟨a, ha, hnot⟩ := hnew
    refine Or.inr ⟨a, ha, hnot, ?_⟩
    rw [← Instance.weight_insert hnot]
    apply Instance.weight_le_of_forall_mem
    intro b hb
    rw [← IdSet.mem_def, IdSet.mem_insert]
    by_cases hin : b ∈ ids
    · exact Or.inr hin
    · exact Or.inl (h.2 b hb a ha hin hnot)
  · left
    apply Instance.weight_le_of_forall_mem
    intro b hb
    by_contra hnot
    exact hnew ⟨b, hb, hnot⟩

/-- If the other cover has all the dear subsets too, one swap adds less than the range of a sign. -/
theorem IdSet.OneSwapApart.weight_lt (h : ids.OneSwapApart ids')
    (hshared : ∀ a ∈ ids', 2 ^ 63 ≤ inst.costAt a → a ∈ ids) :
    inst.weight ids'.toList < inst.weight ids.toList + 2 ^ 63 := by
  have hadded : inst.weight ids'.toList ≤ inst.weight ids.toList ∨ ∃ a ∈ ids', a ∉ ids ∧
      inst.weight ids'.toList ≤ inst.weight ids.toList + inst.costAt a := h.weight_le
  rcases hadded with hle | ⟨a, ha, hnot, hle⟩
  · omega
  · have hcheap : ¬ 2 ^ 63 ≤ inst.costAt a := fun hdear => hnot (hshared a ha hdear)
    omega

/-- There is no room for a dear subset beside a selection that is dear already. -/
theorem Selection.mem_of_large (ht : t.Consistent inst) (htotal : inst.totalCost < 2 ^ 64)
    (hlarge : 2 ^ 63 ≤ t.cost) {a : Nat} (ha : a < inst.subsetCount)
    (hdear : 2 ^ 63 ≤ inst.costAt a) : a ∈ t.ids := by
  by_contra hnot
  have hknown : ∀ b ∈ t.ids.insert a, b < inst.subsetCount := by
    intro b hb
    rcases IdSet.mem_insert.mp hb with rfl | hb
    · exact ha
    · exact ht.ids_lt b hb
  have hle := Instance.weight_le_totalCost hknown
  rw [Instance.weight_insert hnot, ← ht.cost_eq] at hle
  omega

theorem Selection.large_of_mem (hs : s.Consistent inst) {a : Nat} (ha : a ∈ s.ids)
    (hdear : 2 ^ 63 ≤ inst.costAt a) : 2 ^ 63 ≤ s.cost := by
  have hweight : inst.weight (s.ids.erase a).toList + inst.costAt a = inst.weight s.ids.toList :=
    Instance.weight_erase ha
  rw [← hs.cost_eq] at hweight
  omega

/-- The costs are read with the same sign exactly when the same dear subsets are selected. -/
theorem Selection.large_iff_iff (hs : s.Consistent inst) (ht : t.Consistent inst)
    (hswap : t.ids.OneSwapApart s.ids) (htotal : inst.totalCost < 2 ^ 64)
    (hlow : -2 ^ 63 ≤ s.delta t) (hhigh : s.delta t < 2 ^ 63) :
    (2 ^ 63 ≤ s.cost ↔ 2 ^ 63 ≤ t.cost) ↔
      ∀ a, 2 ^ 63 ≤ inst.costAt a → (a ∈ s.ids ↔ a ∈ t.ids) := by
  have hsum : s.cost < 2 ^ 64 := by
    have := Instance.weight_le_totalCost hs.ids_lt
    rw [← hs.cost_eq] at this
    omega
  have hsum' : t.cost < 2 ^ 64 := by
    have := Instance.weight_le_totalCost ht.ids_lt
    rw [← ht.cost_eq] at this
    omega
  unfold delta at hlow hhigh
  constructor
  · intro hside a hdear
    constructor
    · intro ha
      exact mem_of_large ht htotal (hside.mp (large_of_mem hs ha hdear)) (hs.ids_lt a ha) hdear
    · intro ha
      exact mem_of_large hs htotal (hside.mpr (large_of_mem ht ha hdear)) (ht.ids_lt a ha) hdear
  · intro hshared
    -- on different sides, costs in range are so far apart that the swap exchanges a dear subset
    have hless := hswap.weight_lt fun a ha hdear => (hshared a hdear).mp ha
    have hless' := hswap.symm.weight_lt fun a ha hdear => (hshared a hdear).mpr ha
    rw [← hs.cost_eq, ← ht.cost_eq] at hless hless'
    constructor
    · intro hlarge
      by_contra hsmall
      rw [signed_of_ge hlarge hsum, signed_eq (Nat.lt_of_not_le hsmall)] at hlow
      omega
    · intro hlarge
      by_contra hsmall
      rw [signed_of_ge hlarge hsum', signed_eq (Nat.lt_of_not_le hsmall)] at hhigh
      omega

end SetCover
