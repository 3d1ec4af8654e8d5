import Mathlib.Order.WellFounded
import Mathlib.Tactic.TFAE
import SetCover.Proofs.Greedy.History
import SetCover.Proofs.Search.Steering

/-!
# Covers within reach

With shortlists of all subsets and without noise, every subset not drawn yet may be drawn next. So
words can lead a construction through any list of draws in which every draw gains something, and
what it keeps is the whole list. Leaving out of a cover what gains nothing leaves a cover, so no
cover is out of reach but those with a member that is idle in any order.

* `Greedy.canGive_grow_draw`, `Greedy.canGive_grow`: words for a draw, and for a list of draws.
* `construct_reach`: the covers that a construction can give.
-/

namespace SetCover.Greedy

open Search

variable {inst : Instance} {size : Nat} {pool : List Offer} {left order : List Nat}
  {kept ids : IdSet} {o : Offer}

/-! ## Steering a construction -/

/-- Any offer of the shortlist can be drawn. -/
theorem canGive_grow_draw (hleft : left ≠ []) (hpool : pool.length < 2 ^ 64)
    (ho : o ∈ shortlist size pool)
    (h : CanGive (grow inst size (pool.erase o) (leftAfter inst left o.id)
      (keptAfter inst left kept o.id)) ids) : CanGive (grow inst size pool left kept) ids := by
  obtain ⟨first, more, rfl⟩ := List.exists_cons_of_ne_nil hleft
  obtain ⟨i, rfl⟩ := List.get_of_mem ho
  have hsome : ¬ (shortlist size pool).isEmpty = true := fun hempty =>
    List.ne_nil_of_mem ho (List.isEmpty_iff.mp hempty)
  rw [grow, if_neg hsome]
  refine (canGive_below (Nat.lt_of_le_of_lt length_shortlist_le hpool) i).bind
    ((canGive_note _).bind ?_)
  unfold keptAfter at h
  simp only [← gained_ne_zero_iff] at h
  exact h

/-- Where every draw to come gains something, words lead through all of them. -/
theorem canGive_grow (hcount : inst.subsetCount < 2 ^ 64)
    (hcosts : ∀ id < inst.subsetCount, inst.costAt id < 2 ^ 63 - 1) (later drawn : List Nat)
    (heach : inst.EachNew (later.reverse ++ drawn))
    (hleft : inst.uncovered (later.reverse ++ drawn) = []) :
    CanGive (grow inst inst.subsetCount (onOffer (plainPrices inst) drawn) (inst.uncovered drawn)
      (.ofList (inst.gainful drawn))) (.ofList (later.reverse ++ drawn)) := by
  induction later generalizing drawn with
  | nil =>
      rw [List.reverse_nil, List.nil_append] at heach hleft ⊢
      rw [hleft, grow, heach.gainful_eq]
      exact canGive_pure _
  | cons s later ih =>
      rw [List.reverse_cons, List.append_assoc, List.singleton_append] at heach hleft ⊢
      have hnews : inst.news drawn s ≠ [] := heach.right.1
      have hopen : inst.uncovered drawn ≠ [] := by
        obtain ⟨e, he, _⟩ := Instance.exists_left_iff.mpr hnews
        exact List.ne_nil_of_mem he
      have hpool : (onOffer (plainPrices inst) drawn).length ≤ inst.subsetCount :=
        Nat.le_trans (List.length_filter_le _ _) (length_plainOffers_le inst)
      have ho : (⟨inst.costAt s, s⟩ : Offer) ∈ onOffer (plainPrices inst) drawn :=
        mem_onOffer.mpr ⟨(mem_plainOffers hcosts).mpr ⟨Instance.lt_of_news hnews, rfl⟩,
          Instance.not_mem_of_news hnews⟩
      refine canGive_grow_draw hopen (Nat.lt_of_le_of_lt hpool hcount)
        (mem_shortlist_of_length_le hpool ho) ?_
      rw [erase_onOffer ho, ← Instance.uncovered_cons, keptAfter_uncovered]
      exact ih (s :: drawn) heach hleft

/-- Words lead a construction to any cover that every member adds something to in some order. -/
theorem canGive_construct (hcoverable : inst.requireCoverable = .ok ())
    (hpos : 1 ≤ inst.subsetCount) (hcount : inst.subsetCount < 2 ^ 64)
    (hcosts : ∀ id < inst.subsetCount, inst.costAt id < 2 ^ 63 - 1)
    (hcovers : inst.covers (.ofList order) = true) (heach : inst.EachNew order) :
    CanGive (construct inst inst.subsetCount 0) (.ofList order) := by
  unfold construct
  rw [if_neg (by omega)]
  refine (canGive_ofExcept hcoverable).bind ?_
  rw [mapM_price_zero]
  refine (canGive_pure _).bind ?_
  have hgrow := canGive_grow hcount hcosts order.reverse []
  rw [List.reverse_reverse, List.append_nil, onOffer_nil, Instance.uncovered_nil] at hgrow
  exact hgrow heach (Instance.covers_ofList_iff.mp hcovers)

/-! ## The covers within reach -/

/-- A cover stays one without the members that add nothing in the order of their ids. -/
theorem exists_eachNew_of_covers (hcovers : inst.covers ids = true) :
    ∃ order, inst.covers (.ofList order) = true ∧ inst.EachNew order ∧ ∀ a ∈ order, a ∈ ids := by
  refine ⟨inst.gainful ids.toList, ?_, Instance.eachNew_gainful, fun a ha =>
    Instance.gainful_sublist.subset ha⟩
  rw [Instance.covers_ofList_iff, Instance.uncovered_gainful, ← Instance.covers_ofList_iff,
    IdSet.ofList_toList]
  exact hcovers

/-- A coverable instance has a cover that no other one is cheaper than. -/
theorem exists_cheapest_cover (hcoverable : inst.requireCoverable = .ok ()) :
    ∃ ids, inst.covers ids = true ∧
      ∀ other, inst.covers other = true → inst.weight ids.toList ≤ inst.weight other.toList := by
  have hsome : ∃ ids, inst.covers ids = true := ⟨_, Instance.covers_range_iff.mpr hcoverable⟩
  obtain ⟨ids, hcovers, hleast⟩ :=
    (InvImage.wf (fun ids : IdSet => inst.weight ids.toList) Nat.lt_wfRel.wf).has_min
      { ids | inst.covers ids = true } hsome
  exact ⟨ids, hcovers, fun other hother => Nat.le_of_not_lt (hleast other hother)⟩

/-- **Covers within reach.** Let the instance be coverable, with at most `2 ^ 63` subsets and costs
below the mark of taken subsets. Without noise and with shortlists of all subsets, a construction
gives a set, for one or other stream of words, exactly if the set is a cover whose members come in
some order in which each has an element that those before it do not have. So every cover that is
none without any of its members is within reach, and so is one of those that cost least. -/
theorem construct_reach (inst : Instance) (hcoverable : inst.requireCoverable = .ok ())
    (hpos : 1 ≤ inst.subsetCount) (hcount : inst.subsetCount ≤ 2 ^ 63)
    (hcosts : ∀ id < inst.subsetCount, inst.costAt id < 2 ^ 63 - 1) :
    (∀ ids, List.TFAE [
      ∃ σ σ', (construct inst inst.subsetCount 0).run σ = .ok ids σ',
      ∃ words σ', (construct inst inst.subsetCount 0).run ⟨.ofStream (.ofList words), []⟩ =
        .ok ids σ',
      inst.covers ids = true ∧ ∃ order, ids = .ofList order ∧ inst.EachNew order]) ∧
    (∀ ids, inst.covers ids = true →
      (∀ sub : IdSet, (∀ a ∈ sub, a ∈ ids) → inst.covers sub = true → sub = ids) →
      ∃ words σ', (construct inst inst.subsetCount 0).run ⟨.ofStream (.ofList words), []⟩ =
        .ok ids σ') ∧
    ∃ ids, inst.covers ids = true ∧
      (∀ other, inst.covers other = true → inst.weight ids.toList ≤ inst.weight other.toList) ∧
      ∃ words σ', (construct inst inst.subsetCount 0).run ⟨.ofStream (.ofList words), []⟩ =
        .ok ids σ' := by
  have hrange : inst.NoiseInRange 0 := fun hnoise => absurd hnoise (by decide)
  have hgives : ∀ order, inst.covers (.ofList order) = true → inst.EachNew order →
      ∃ words σ', (construct inst inst.subsetCount 0).run ⟨.ofStream (.ofList words), []⟩ =
        .ok (.ofList order) σ' := fun order hcovers heach =>
    (canGive_construct hcoverable hpos (by omega) hcosts hcovers heach).exists_run
  refine ⟨fun ids => ?_, fun ids hcovers hminimal => ?_, ?_⟩
  · tfae_have 1 → 3 := by
      rintro ⟨σ, σ', hrun⟩
      obtain ⟨_, draws, _, _, _, _, hleft, rfl, _⟩ := (ends_construct_history hrange).of_run hrun
      refine ⟨?_, inst.gainful draws, rfl, Instance.eachNew_gainful⟩
      rw [Instance.covers_ofList_iff, Instance.uncovered_gainful, hleft]
    tfae_have 3 → 2 := by
      rintro ⟨hcovers, order, rfl, heach⟩
      exact hgives order hcovers heach
    tfae_have 2 → 1 := fun ⟨_, hrun⟩ => ⟨_, hrun⟩
    tfae_finish
  · obtain ⟨order, hcovers', heach, hsub⟩ := exists_eachNew_of_covers hcovers
    rw [← hminimal (.ofList order) (fun a ha => hsub a (IdSet.mem_ofList.mp ha)) hcovers']
    exact hgives order hcovers' heach
  · obtain ⟨ids, hcovers, hleast⟩ := exists_cheapest_cover hcoverable
    obtain ⟨order, hcovers', heach, hsub⟩ := exists_eachNew_of_covers hcovers
    refine ⟨.ofList order, hcovers', fun other hother => ?_, hgives order hcovers' heach⟩
    calc inst.weight (IdSet.ofList order).toList
        ≤ inst.weight ids.toList :=
          Instance.weight_le_of_forall_mem fun a ha => hsub a (IdSet.mem_ofList.mp ha)
      _ ≤ inst.weight other.toList := hleast other hother

/-- Two subsets hold both elements, the two others one each. A construction may keep the first
subset after the third, but not the first and the second, and it may find the cheapest cover. -/
theorem construct_reach_of_four :
    ∃ inst, Instance.build 2 4 [7, 3, 3, 1] [[0, 1, 2], [0, 1, 3]] = .ok inst ∧
      inst.requireCoverable = .ok () ∧ 1 ≤ inst.subsetCount ∧ inst.subsetCount ≤ 2 ^ 63 ∧
      (∀ id < inst.subsetCount, inst.costAt id < 2 ^ 63 - 1) ∧
      (∃ words σ', (construct inst inst.subsetCount 0).run ⟨.ofStream (.ofList words), []⟩ =
        .ok (.ofList [0, 2]) σ') ∧
      ¬ ∃ σ σ', (construct inst inst.subsetCount 0).run σ = .ok (.ofList [0, 1]) σ' := by
  obtain ⟨inst, hbuild, hcoverable, hcount, hcosts, hcovers, heach, hcontents⟩ :
      ∃ inst, Instance.build 2 4 [7, 3, 3, 1] [[0, 1, 2], [0, 1, 3]] = .ok inst ∧
        inst.requireCoverable = .ok () ∧ inst.subsetCount = 4 ∧
        (∀ id < inst.subsetCount, inst.costAt id < 2 ^ 63 - 1) ∧
        inst.covers (.ofList [0, 2]) = true ∧ inst.EachNew [0, 2] ∧
        ∀ s < 2, inst.contentsOf s = .ofList [0, 1] :=
    ⟨_, rfl, by with_unfolding_all rfl, rfl, by decide, by with_unfolding_all rfl,
      ⟨by decide +kernel, by decide +kernel, trivial⟩, by decide +kernel⟩
  obtain ⟨hiff, _⟩ := construct_reach inst hcoverable (by omega) (by omega) hcosts
  refine ⟨inst, hbuild, hcoverable, by omega, by omega, hcosts, ?_, ?_⟩
  · refine ((hiff _).out 1 2).mpr ?_
    exact ⟨hcovers, [0, 2], rfl, heach⟩
  · intro hrun
    obtain ⟨_, order, hids, heach⟩ := ((hiff _).out 0 2).mp hrun
    have hmem : ∀ a, a ∈ order ↔ a < 2 := by
      intro a
      rw [← IdSet.mem_ofList, ← hids, IdSet.mem_ofList, List.mem_pair]
      omega
    match order, heach with
    | [], _ => exact List.not_mem_nil ((hmem 0).mpr (by decide))
    | [s], _ =>
        have hfirst := List.mem_singleton.mp ((hmem 0).mpr (by decide))
        have hsecond := List.mem_singleton.mp ((hmem 1).mpr (by decide))
        omega
    | s :: t :: earlier, heach =>
        -- what the last draw holds, the one before it holds
        obtain ⟨e, he⟩ := List.exists_mem_of_ne_nil _ heach.1
        obtain ⟨he, hnew⟩ := Instance.mem_news.mp he
        rw [hcontents s ((hmem s).mp (by simp))] at he
        refine hnew t (by simp) ?_
        rwa [hcontents t ((hmem t).mp (by simp))]

end SetCover.Greedy
