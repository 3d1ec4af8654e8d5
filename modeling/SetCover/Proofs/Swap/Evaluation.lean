import SetCover.Proofs.Instance.Exchange

/-!
# Judging a swap

A swap is judged from the selection before it, which need not be a cover. Its cost comes from the
cost before. Its cover comes from the elements that are lost with the subset taken out, as long as
nothing was missing before; what was missing has to be in the subset put in as well.

* `orphans_ascending`, `mem_orphans_iff_lost`: the elements that are lost with a subset.
* `swap_evaluated`: cost and cover of a swap, as they are computed and as they are.
-/

namespace SetCover

variable {inst : Instance} {ids : IdSet} {s e : Nat}

namespace Instance

/-! ## Lost elements -/

theorem orphans_ascending : (inst.orphans ids s).Pairwise (· < ·) :=
  (inst.contentsOf s).ascending.filter _

theorem holds_erase_iff :
    inst.Holds (· ∈ ids.erase s) e ↔ ∃ t ∈ inst.holdersOf e, t ∈ ids ∧ t ≠ s := by
  simp only [Holds, IdSet.mem_erase]

/-- The orphans of a selected subset are the elements that are lost with it. -/
theorem mem_orphans_iff_lost (hs : s ∈ ids) :
    e ∈ inst.orphans ids s ↔
      inst.Holds (· ∈ ids) e ∧ ¬ inst.Holds (· ∈ ids.erase s) e := by
  rw [mem_orphans, holds_erase_iff]
  constructor
  · intro ⟨hholds, honly⟩
    refine ⟨⟨s, hholds, hs⟩, ?_⟩
    intro ⟨t, ht, hids, hne⟩
    exact hne (honly t ht hids)
  · intro ⟨⟨t, ht, hids⟩, hlost⟩
    have honly : ∀ t ∈ inst.holdersOf e, t ∈ ids → t = s := by
      intro t ht hids
      by_contra hne
      exact hlost ⟨t, ht, hids, hne⟩
    exact ⟨honly t ht hids ▸ ht, honly⟩

end Instance

/-! ## Swaps -/

/-- **Judging a swap.** For a selection with the cost of its ids, which may leave elements without
cover, and any swap of one of its subsets for a known one, the cost after the swap is computed
without a breach and is the weight of the ids after it. The orphans of the subset taken out are,
in ascending order, the elements that are lost with it. The ids after the swap cover exactly when
the subset put in passes the test for the orphans and holds everything that was not held before;
if nothing was missing, the test decides alone. -/
theorem swap_evaluated (inst : Instance) (htotal : inst.totalCost < 2 ^ 64) (current : Selection)
    (hcost : current.cost = inst.weight current.ids.toList)
    (hids : ∀ id ∈ current.ids, id < inst.subsetCount) (out into : Nat)
    (hout : out ∈ current.ids) (hinto : into < inst.subsetCount) :
    (∃ cost, costAfter inst current out into = .ok cost ∧
      inst.weightOf (swap current.ids out into).toList = .ok cost ∧ cost < 2 ^ 64) ∧
    ∃ lost passes, inst.orphansOf current.ids out = .ok lost ∧ lost.Pairwise (· < ·) ∧
      (∀ e, e ∈ lost ↔ inst.Holds (· ∈ current.ids) e ∧
        ¬ inst.Holds (· ∈ current.ids.erase out) e) ∧
      inst.holdsAll into lost = .ok passes ∧
      (passes = true ↔ ∀ e ∈ lost, into ∈ inst.holdersOf e) ∧
      (inst.covers (swap current.ids out into) = true ↔ passes = true ∧
        ∀ e < inst.elementCount, ¬ inst.Holds (· ∈ current.ids) e → into ∈ inst.holdersOf e) ∧
      (inst.covers current.ids = true →
        (inst.covers (swap current.ids out into) = true ↔ passes = true)) := by
  have hknown : ∀ id ∈ swap current.ids out into, id < inst.subsetCount := swap_lt hids hinto
  have hweight : inst.weightOf (swap current.ids out into).toList =
      .ok (inst.weight (swap current.ids out into).toList) :=
    if_pos (Instance.knows_iff.mpr hknown)
  have hpasses : decide (∀ e ∈ inst.orphans current.ids out, into ∈ inst.holdersOf e) = true ↔
      ∀ e ∈ inst.orphans current.ids out, into ∈ inst.holdersOf e := decide_eq_true_iff
  refine ⟨⟨_, costAfter_eq hcost hids hout hinto, hweight, ?_⟩,
    inst.orphans current.ids out, _, Instance.orphansOf_eq (hids out hout),
    Instance.orphans_ascending, fun e => Instance.mem_orphans_iff_lost hout,
    Instance.holdsAll_eq Instance.orphans_lt, hpasses, ?_, ?_⟩
  · exact Nat.lt_of_le_of_lt (Instance.weight_le_totalCost hknown) htotal
  · rw [Instance.covers_iff, hpasses]
    exact Instance.covers_swap_iff
  · rw [Instance.covers_iff, Instance.covers_iff, hpasses]
    exact Instance.covers_swap_iff_of_covers

/-- The last element is missing before the swap, and in the subset put in. -/
theorem swap_evaluated_of_missing :
    ∃ inst, Instance.build 3 3 [7, 3, 5] [[0, 1], [1, 2], [2]] = .ok inst ∧
      inst.totalCost < 2 ^ 64 ∧ 10 = inst.weight (IdSet.ofList [0, 1]).toList ∧
      (∀ id ∈ IdSet.ofList [0, 1], id < inst.subsetCount) ∧ 1 ∈ IdSet.ofList [0, 1] ∧
      2 < inst.subsetCount ∧ inst.covers (.ofList [0, 1]) = false ∧
      inst.covers (swap (.ofList [0, 1]) 1 2) = true ∧
      ∃ lost, costAfter inst ⟨10, 2, .ofList [0, 1]⟩ 1 2 = .ok 12 ∧
        inst.orphansOf (.ofList [0, 1]) 1 = .ok lost ∧ 1 ∈ lost ∧
        inst.holdsAll 2 lost = .ok true := by
  obtain ⟨inst, hbuild, htotal, hcost, hids, hinto, hmissing, hcovers, hweight, hlost⟩ :
      ∃ inst, Instance.build 3 3 [7, 3, 5] [[0, 1], [1, 2], [2]] = .ok inst ∧
        inst.totalCost < 2 ^ 64 ∧ 10 = inst.weight (IdSet.ofList [0, 1]).toList ∧
        (∀ id ∈ IdSet.ofList [0, 1], id < inst.subsetCount) ∧ 2 < inst.subsetCount ∧
        inst.covers (.ofList [0, 1]) = false ∧
        inst.covers (swap (.ofList [0, 1]) 1 2) = true ∧
        inst.weightOf (swap (.ofList [0, 1]) 1 2).toList = .ok 12 ∧
        1 ∈ inst.orphans (.ofList [0, 1]) 1 :=
    ⟨_, rfl, by decide, by decide, by decide, by decide, by decide +kernel, by decide +kernel,
      by with_unfolding_all rfl, by decide +kernel⟩
  have hout : 1 ∈ IdSet.ofList [0, 1] := by decide
  obtain ⟨⟨cost, hafter, hcost', _⟩, lost, passes, horphans, _, _, hpasses, _, hiff, _⟩ :=
    swap_evaluated inst htotal ⟨10, 2, .ofList [0, 1]⟩ hcost hids 1 2 hout hinto
  obtain rfl : cost = 12 := Except.ok.inj (hcost'.symm.trans hweight)
  obtain rfl : lost = inst.orphans (.ofList [0, 1]) 1 :=
    Except.ok.inj (horphans.symm.trans (Instance.orphansOf_eq (hids 1 hout)))
  obtain rfl : passes = true := (hiff.mp hcovers).1
  exact ⟨inst, hbuild, htotal, hcost, hids, hout, hinto, hmissing, hcovers, _, hafter, horphans,
    hlost, hpasses⟩

end SetCover
