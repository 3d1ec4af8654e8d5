import Mathlib.Algebra.Order.BigOperators.Group.List
import Mathlib.Algebra.Order.Ring.Nat
import SetCover.Proofs.Greedy.Order
import SetCover.Proofs.Greedy.Totality

/-!
# How much a construction can cost

A construction from shortlists of one takes a subset for an element that nothing before it holds.
Any other cover has a subset for that element too, which was still on offer and so at no lower a
price. Prices and costs differ by the noise at most, so no subset that is kept costs much more than
some subset of the other cover.

* `Greedy.ends_construct_one`: with shortlists of one a construction is a scan at some prices.
* `Greedy.exists_member_of_mem_scan`: the exchange with another cover.
* `Greedy.construct_one_bounded`: the bounds on the subsets that are kept and on their cost.
-/

namespace SetCover

open Search

variable {inst : Instance} {noise : Nat} {E : Fault → Session → Prop} {σ : Session}

theorem Instance.weight_le_mul {ids : List Nat} {most : Nat}
    (h : ∀ s ∈ ids, inst.costAt s ≤ most) : inst.weight ids ≤ ids.length * most := by
  have hsum : (ids.map inst.costAt).sum ≤ (ids.map inst.costAt).length • most := by
    apply List.sum_le_card_nsmul
    simpa using h
  rwa [List.length_map, Nat.nsmul_eq_mul] at hsum

namespace Greedy

/-- Between two prices that costs lead to, the costs differ by less than twice the noise. -/
theorem IsPrice.cost_le {a b : Nat} {p q : Int} (hp : IsPrice noise a p) (hq : IsPrice noise b q)
    (hle : p ≤ q) : a ≤ b + (2 * noise - 1) := by
  unfold IsPrice at hp hq
  omega

theorem ends_construct_scan (hrange : inst.NoiseInRange noise) :
    Ends (construct inst 1 noise) anyFault (fun ids _ => ∃ prices, inst.PricedBy noise prices ∧
      scan inst (offers prices) (List.range inst.elementCount) .empty = some ids) σ := by
  unfold construct
  apply ends_ite
  · intro _
    exact ends_throw trivial
  · intro _
    apply ends_bind (ends_any _)
    intro _ σ _
    apply ends_bind (ends_prices hrange)
    intro prices σ hprices
    exact ends_grow_one.mono (fun _ _ _ => trivial) fun ids _ hscan => ⟨prices, hprices, hscan⟩

/-- With shortlists of one, a construction takes all offers in order, at some prices. -/
theorem ends_construct_one (hcoverable : inst.requireCoverable = .ok ())
    (hpos : 1 ≤ inst.subsetCount)
    (hcosts : ∀ id < inst.subsetCount, inst.costAt id < 2 ^ 63 - 1)
    (hnoise : ∀ id < inst.subsetCount, inst.costAt id + noise < 2 ^ 63) :
    Ends (construct inst 1 noise) E (fun ids _ => ∃ prices, inst.PricedBy noise prices ∧
      scan inst (offers prices) (List.range inst.elementCount) .empty = some ids) σ := by
  have hfits : inst.NoiseFits noise := Or.inr hnoise
  apply ((ends_construct_total hcoverable hcosts hfits (Nat.le_refl 1) hpos).also
    (ends_construct_scan (hfits.inRange hcosts))).weaken
  intro ids _ h
  exact h.2

/-- Whatever subset is kept, another cover has one that costs hardly less. -/
theorem exists_member_of_mem_scan {prices : List Int} {ids cover : IdSet} {s : Nat}
    (hcosts : ∀ id < inst.subsetCount, inst.costAt id < 2 ^ 63 - 1)
    (hnoise : ∀ id < inst.subsetCount, inst.costAt id + noise < 2 ^ 63)
    (hprices : inst.PricedBy noise prices)
    (hscan : scan inst (offers prices) (List.range inst.elementCount) .empty = some ids)
    (hcover : inst.covers cover = true) (hs : s ∈ ids) :
    ∃ t ∈ cover, t < inst.subsetCount ∧
      inst.costAt s ≤ inst.costAt t + (2 * noise - 1) := by
  have hrange := Instance.NoiseFits.inRange hcosts (Or.inr hnoise)
  obtain ⟨e, he, o, ho, rfl, hholds, hleast⟩ :=
    exists_least_of_mem_scan (pairwise_offers prices) hscan hs
  -- the other cover has a subset for the same element
  obtain ⟨t, ht, htcover⟩ := Instance.covers_iff.mp hcover e (List.mem_range.mp he)
  have htlt : t < inst.subsetCount := Instance.mem_holdersOf_lt ht
  have hslt : o.id < inst.subsetCount := Instance.mem_holdersOf_lt hholds
  obtain ⟨o', ho', rfl⟩ := (exists_mem_offers_iff hprices hrange).mpr
    ⟨htlt, Instance.isOpen_of_lt (hcosts t htlt)⟩
  have hle : o.price ≤ o'.price := by
    have hle := Offer.le_iff.mp (hleast o' ho' ht)
    omega
  have hprice := hprices.2 _ _ (mem_offers.mp ho).1
  have hprice' := hprices.2 _ _ (mem_offers.mp ho').1
  have hsum := hnoise o.id hslt
  have hsum' := hnoise o'.id htlt
  rw [signed_eq (n := noise) (by omega), signed_eq (by omega)] at hprice hprice'
  exact ⟨o'.id, htcover, htlt, hprice.cost_le hprice' hle⟩

/-- **What taking the cheapest costs.** On a coverable instance with subsets, at costs below the
mark of taken subsets, and with noise at costs that it leaves in range, a construction from
shortlists of one gives a cover, of no more subsets than there are elements, whatever words are
drawn. Whatever other cover there is, every subset of the construction costs at most as much as some
subset of that cover, and less than twice the noise more. So the construction costs at most as much
as if every element were paid for with the dearest subset of the other cover, and less than twice
the noise more for every subset. -/
theorem construct_one_bounded (hcoverable : inst.requireCoverable = .ok ())
    (hnoise : noise = 0 ∧ (∀ id < inst.subsetCount, inst.costAt id < 2 ^ 63 - 1) ∨
      1 ≤ noise ∧ ∀ id < inst.subsetCount, inst.costAt id + noise < 2 ^ 63) (σ : Session) :
    (1 ≤ inst.subsetCount → ∃ ids σ', (construct inst 1 noise).run σ = .ok ids σ') ∧
      ∀ ids σ', (construct inst 1 noise).run σ = .ok ids σ' →
        (∀ s ∈ ids, s < inst.subsetCount) ∧ inst.covers ids = true ∧
        ids.card ≤ inst.elementCount ∧
        ∀ cover : IdSet, inst.covers cover = true →
          (∀ s ∈ ids, ∃ t ∈ cover, t < inst.subsetCount ∧
            inst.costAt s ≤ inst.costAt t + (2 * noise - 1)) ∧
          ∀ most, (∀ t ∈ cover, inst.costAt t ≤ most) →
            (∀ s ∈ ids, inst.costAt s ≤ most + (2 * noise - 1)) ∧
            inst.weight ids.toList ≤ inst.elementCount * most + ids.card * (2 * noise - 1) := by
  have hcosts : ∀ id < inst.subsetCount, inst.costAt id < 2 ^ 63 - 1 := by
    intro id hid
    rcases hnoise with ⟨_, hcosts⟩ | ⟨hpos, hcosts⟩
    · exact hcosts id hid
    · have := hcosts id hid
      omega
  have hsums : ∀ id < inst.subsetCount, inst.costAt id + noise < 2 ^ 63 := by
    intro id hid
    have := hcosts id hid
    rcases hnoise with ⟨rfl, _⟩ | ⟨_, hcosts⟩
    · omega
    · exact hcosts id hid
  have hrange := Instance.NoiseFits.inRange hcosts (Or.inr hsums)
  constructor
  · intro hpos
    obtain ⟨ids, σ', hrun, _⟩ :=
      (ends_construct_one (σ := σ) hcoverable hpos hcosts hsums).exists_run
    exact ⟨ids, σ', hrun⟩
  · intro ids σ' hrun
    obtain ⟨hids, hcovered⟩ := (ends_construct 1 noise).of_run hrun
    obtain ⟨prices, hprices, hscan⟩ := (ends_construct_scan hrange).of_run hrun
    have hcard : ids.card ≤ inst.elementCount := by
      have hle := card_scan_le hscan
      rw [List.length_range] at hle
      exact (Nat.zero_add inst.elementCount ▸ hle : ids.card ≤ inst.elementCount)
    refine ⟨hids, hcovered, hcard, ?_⟩
    intro cover hcover
    have hmember : ∀ s ∈ ids, ∃ t ∈ cover, t < inst.subsetCount ∧
        inst.costAt s ≤ inst.costAt t + (2 * noise - 1) := fun s hs =>
      exists_member_of_mem_scan hcosts hsums hprices hscan hcover hs
    refine ⟨hmember, ?_⟩
    intro most hmost
    have hdearest : ∀ s ∈ ids, inst.costAt s ≤ most + (2 * noise - 1) := by
      intro s hs
      obtain ⟨t, ht, _, hle⟩ := hmember s hs
      exact Nat.le_trans hle (Nat.add_le_add_right (hmost t ht) _)
    refine ⟨hdearest, ?_⟩
    calc inst.weight ids.toList
        ≤ ids.card * (most + (2 * noise - 1)) := Instance.weight_le_mul hdearest
      _ = ids.card * most + ids.card * (2 * noise - 1) := Nat.mul_add ..
      _ ≤ inst.elementCount * most + ids.card * (2 * noise - 1) :=
        Nat.add_le_add_right (Nat.mul_le_mul_right most hcard) _

/-- Noise of two on two elements, against the cover by the two dear subsets. -/
theorem construct_one_bounded_of_noise :
    ∃ inst ids σ', Instance.build 2 4 [7, 3, 3, 1] [[0, 1, 2], [0, 1, 3]] = .ok inst ∧
      (construct inst 1 2).run ⟨.ofStream (.ofList [3, 1, 4]), []⟩ = .ok ids σ' ∧
      inst.covers ids = true ∧
      inst.weight ids.toList ≤ inst.elementCount * 7 + ids.card * 3 := by
  obtain ⟨inst, hbuild, hcoverable, hpos, hcosts, hcovers, hmost⟩ :
      ∃ inst, Instance.build 2 4 [7, 3, 3, 1] [[0, 1, 2], [0, 1, 3]] = .ok inst ∧
        inst.requireCoverable = .ok () ∧ 1 ≤ inst.subsetCount ∧
        (∀ id < inst.subsetCount, inst.costAt id + 2 < 2 ^ 63) ∧
        inst.covers (.ofList [0, 1]) = true ∧
        ∀ t ∈ IdSet.ofList [0, 1], inst.costAt t ≤ 7 :=
    ⟨_, rfl, by with_unfolding_all rfl, by decide, by decide +kernel, by decide +kernel,
      by decide +kernel⟩
  obtain ⟨hruns, hbound⟩ := construct_one_bounded hcoverable (Or.inr ⟨by omega, hcosts⟩)
    ⟨.ofStream (.ofList [3, 1, 4]), []⟩
  obtain ⟨ids, σ', hrun⟩ := hruns hpos
  obtain ⟨-, hcovered, -, hothers⟩ := hbound ids σ' hrun
  obtain ⟨-, hdearest⟩ := hothers _ hcovers
  exact ⟨inst, ids, σ', hbuild, hrun, hcovered, (hdearest 7 hmost).2⟩

end Greedy

end SetCover
