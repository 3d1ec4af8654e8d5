import SetCover.Proofs.Instance.Weight
import SetCover.Swap.Basic

/-!
# Exchanging one subset

A swap is judged without looking at all ids again: its cost from the cost before it, its cover
from the elements that only the subset taken out held. Both shortcuts are exact, for a selection
that covers or not.

* `costAfter_eq`: the cost after a swap is the weight of the ids after it.
* `mem_orphans`: which elements a selection holds through one subset only.
* `covers_swap_iff`: when the ids after a swap cover.
-/

namespace SetCover

variable {inst : Instance}

/-! ## Costs -/

theorem swap_self {ids : IdSet} {out : Nat} (h : out ∈ ids) : swap ids out out = ids :=
  IdSet.insert_erase h

theorem swap_lt {ids : IdSet} {out into : Nat} (hids : ∀ id ∈ ids, id < inst.subsetCount)
    (hinto : into < inst.subsetCount) : ∀ id ∈ swap ids out into, id < inst.subsetCount := by
  intro id hid
  rcases mem_swap.mp hid with rfl | ⟨h, _⟩
  · exact hinto
  · exact hids id h

/-- The cost computed from the cost before a swap is the weight of the ids after it. -/
theorem costAfter_eq {current : Selection} {out into : Nat}
    (hcost : current.cost = inst.weight current.ids.toList)
    (hids : ∀ id ∈ current.ids, id < inst.subsetCount) (hout : out ∈ current.ids)
    (hinto : into < inst.subsetCount) :
    costAfter inst current out into =
      .ok (inst.weight (swap current.ids out into).toList) := by
  have herase : inst.weight (current.ids.erase out).toList + inst.costAt out =
      inst.weight current.ids.toList := Instance.weight_erase hout
  have hknown : ¬ inst.subsetCount ≤ out := Nat.not_le.mpr (hids out hout)
  have henough : ¬ current.cost < inst.costAt out := by omega
  unfold costAfter
  by_cases heq : out = into
  · subst heq
    rw [if_pos rfl, swap_self hout, hcost]
  · rw [if_neg heq, if_neg hknown, if_neg henough]
    by_cases hin : into ∈ current.ids
    · have hrest : into ∈ current.ids.erase out := IdSet.mem_erase.mpr ⟨hin, Ne.symm heq⟩
      rw [if_pos (IdSet.contains_iff.mpr hin), swap, IdSet.insert_of_mem hrest]
      congr 1
      omega
    · have hrest : into ∉ current.ids.erase out := fun h => hin (IdSet.mem_erase.mp h).1
      rw [if_neg (by simpa using hin), if_neg (Nat.not_le.mpr hinto), swap,
        Instance.weight_insert hrest]
      congr 1
      omega

/-! ## Covers -/

namespace Instance

theorem lt_of_mem_holdersOf {e s : Nat} (h : s ∈ inst.holdersOf e) : e < inst.elementCount := by
  by_contra hge
  have hnone : inst.holders[e]? = none :=
    Array.getElem?_eq_none_iff.mpr (Nat.le_of_not_lt hge)
  rw [holdersOf, rowAt, hnone] at h
  exact IdSet.not_mem_empty h

theorem mem_orphans {ids : IdSet} {s e : Nat} :
    e ∈ inst.orphans ids s ↔
      s ∈ inst.holdersOf e ∧ ∀ t ∈ inst.holdersOf e, t ∈ ids → t = s := by
  rw [orphans, List.mem_filter, ← IdSet.mem_def, mem_contentsOf]
  simp only [Bool.not_eq_true', List.any_eq_false, Bool.and_eq_true, bne_iff_ne, ne_eq,
    IdSet.contains_iff, not_and, ← IdSet.mem_def]
  constructor
  · rintro ⟨hs, h⟩
    exact ⟨hs, fun t ht hids => by_contra fun hne => h t ht hne hids⟩
  · rintro ⟨hs, h⟩
    exact ⟨hs, fun t ht hne hids => hne (h t ht hids)⟩

theorem orphansOf_eq {ids : IdSet} {s : Nat} (h : s < inst.subsetCount) :
    inst.orphansOf ids s = .ok (inst.orphans ids s) := if_pos h

theorem holds_swap_iff {ids : IdSet} {out into e : Nat} :
    inst.Holds (· ∈ swap ids out into) e ↔
      into ∈ inst.holdersOf e ∨ ∃ t ∈ inst.holdersOf e, t ∈ ids ∧ t ≠ out := by
  constructor
  · rintro ⟨t, ht, hswap⟩
    rcases mem_swap.mp hswap with rfl | hids
    · exact Or.inl ht
    · exact Or.inr ⟨t, ht, hids⟩
  · rintro (hinto | ⟨t, ht, hids⟩)
    · exact ⟨into, hinto, mem_swap.mpr (Or.inl rfl)⟩
    · exact ⟨t, ht, mem_swap.mpr (Or.inr hids)⟩

/-- The ids after a swap cover exactly when the subset put in holds the elements that only the
subset taken out held, and those that nothing held before. -/
theorem covers_swap_iff {ids : IdSet} {out into : Nat} :
    inst.Covers (· ∈ swap ids out into) ↔
      (∀ e ∈ inst.orphans ids out, into ∈ inst.holdersOf e) ∧
        ∀ e < inst.elementCount, ¬ inst.Holds (· ∈ ids) e → into ∈ inst.holdersOf e := by
  constructor
  · intro h
    constructor
    · intro e he
      obtain ⟨hs, honly⟩ := mem_orphans.mp he
      rcases holds_swap_iff.mp (h e (lt_of_mem_holdersOf hs)) with hinto | ⟨t, ht, hids, hne⟩
      · exact hinto
      · exact absurd (honly t ht hids) hne
    · intro e he hbare
      rcases holds_swap_iff.mp (h e he) with hinto | ⟨t, ht, hids, _⟩
      · exact hinto
      · exact absurd ⟨t, ht, hids⟩ hbare
  · rintro ⟨horphans, hbare⟩ e he
    rw [holds_swap_iff]
    by_cases hother : ∃ t ∈ inst.holdersOf e, t ∈ ids ∧ t ≠ out
    · exact Or.inr hother
    · refine Or.inl ?_
      have honly : ∀ t ∈ inst.holdersOf e, t ∈ ids → t = out := fun t ht hids =>
        by_contra fun hne => hother ⟨t, ht, hids, hne⟩
      by_cases hs : out ∈ inst.holdersOf e
      · exact horphans e (mem_orphans.mpr ⟨hs, honly⟩)
      · apply hbare e he
        rintro ⟨t, ht, hids⟩
        exact hs (honly t ht hids ▸ ht)

/-- For a cover, the elements that the subset taken out held alone decide. -/
theorem covers_swap_iff_of_covers {ids : IdSet} {out into : Nat}
    (hcovers : inst.Covers (· ∈ ids)) :
    inst.Covers (· ∈ swap ids out into) ↔
      ∀ e ∈ inst.orphans ids out, into ∈ inst.holdersOf e := by
  rw [covers_swap_iff]
  exact and_iff_left fun e he hbare => absurd (hcovers e he) hbare

theorem holdsAll_eq {s : Nat} {es : List Nat} (h : ∀ e ∈ es, e < inst.elementCount) :
    inst.holdsAll s es = .ok (decide (∀ e ∈ es, s ∈ inst.holdersOf e)) := by
  induction es with
  | nil => simp [holdsAll]
  | cons e es ih =>
      rw [holdsAll, if_pos (h e (by simp))]
      by_cases hs : s ∈ inst.holdersOf e
      · rw [if_pos (IdSet.contains_iff.mpr hs), ih fun e he => h e (List.mem_cons_of_mem _ he)]
        simp [hs]
      · rw [if_neg (by simpa using hs)]
        simp [hs]

theorem orphans_lt {ids : IdSet} {s : Nat} : ∀ e ∈ inst.orphans ids s, e < inst.elementCount :=
  fun _ he => lt_of_mem_holdersOf (mem_orphans.mp he).1

end Instance

end SetCover
