import SetCover.Heuristic.Multistart
import SetCover.Proofs.Greedy.Growth

/-!
# Constructions

Every construction that ends gives a cover, at whatever prices. Without noise the prices are the
costs, and where none of them is mistaken for a taken subset, a coverable instance is always
covered.

* `Greedy.ends_construct`, `ends_constructed`, `ends_multistart`: what comes out is a cover.
* `Greedy.exists_plain`: taking all offers in order covers.
* `ends_multistart_same`: several constructions that all give the same.
* `cheapestFirst_total`: the cheapest-first construction succeeds, and its result does not depend
  on the words drawn.
-/

namespace SetCover

open Search

variable {inst : Instance} {E : Fault → Session → Prop} {σ : Session}

/-! ## Any construction -/

theorem Greedy.ends_construct (size noise : Nat) :
    Ends (construct inst size noise) anyFault
      (fun ids _ => (∀ id ∈ ids, id < inst.subsetCount) ∧ inst.covers ids = true) σ := by
  unfold construct
  refine ends_ite (fun _ => ends_throw trivial) fun hsize => ?_
  have hsize : 0 < size := by omega
  refine ends_bind (ends_any _) fun _ σ _ => ends_bind (ends_any _) fun prices σ _ => ?_
  exact (ends_grow hsize grows_start).mono (fun _ _ _ => trivial) fun _ _ h => h

theorem ends_constructed (size noise : Nat) :
    Ends (constructed inst size noise) anyFault (fun s _ => s.IsCover inst) σ := by
  refine ends_bind (Greedy.ends_construct size noise) ?_
  rintro ids σ ⟨hids, hcovers⟩
  exact ends_ofExcept_ok (Selection.of_eq_ok hids) ⟨⟨rfl, rfl, hids⟩, hcovers⟩

theorem ends_multistartFrom (size noise left done : Nat) {best : Option Selection}
    (hbest : ∀ s, best = some s → s.IsCover inst) :
    Ends (multistartFrom inst size noise left done best) anyFault
      (fun best _ => ∀ s, best = some s → s.IsCover inst) σ := by
  induction left generalizing done best σ with
  | zero => exact ends_pure hbest
  | succ left ih =>
      rw [multistartFrom]
      refine ends_bind (ends_constructed size noise) fun s σ hs => ?_
      split
      · exact ih (done + 1) hbest
      · refine ends_bind (ends_any _) fun _ σ _ => ih (done + 1) fun s' hs' => ?_
        cases hs'
        exact hs

theorem ends_multistart (count size noise : Nat) :
    Ends (multistart inst count size noise) anyFault (fun s _ => s.IsCover inst) σ := by
  unfold multistart
  refine ends_bind (ends_multistartFrom size noise count 0 (by simp)) ?_
  rintro (_ | best) σ hbest
  · exact ends_throw trivial
  · exact ends_pure (hbest best rfl)

/-! ## The cheapest-first construction -/

namespace Greedy

theorem mem_offers {prices : List Int} {o : Offer} :
    o ∈ offers prices ↔ prices[o.id]? = some o.price ∧ o.price ≠ takenMark := by
  obtain ⟨price, id⟩ := o
  simp [offers, List.mem_zipIdx_iff_getElem?]

theorem length_offers_le (prices : List Int) : (offers prices).length ≤ prices.length := by
  unfold offers
  rw [List.length_mergeSort]
  exact Nat.le_trans (List.length_filter_le _ _) (by simp)

/-- The costs as prices. -/
def plainPrices (inst : Instance) : List Int := inst.costs.toList.map fun cost => signed cost

theorem length_plainOffers_le (inst : Instance) :
    (offers (plainPrices inst)).length ≤ inst.subsetCount :=
  Nat.le_trans (length_offers_le _) (by simp [plainPrices, Instance.subsetCount])

/-- Below the mark of taken subsets, every subset is on offer at its cost. -/
theorem mem_plainOffers (hcosts : ∀ id < inst.subsetCount, inst.costAt id < 2 ^ 63 - 1)
    {o : Offer} :
    o ∈ offers (plainPrices inst) ↔ o.id < inst.subsetCount ∧ o.price = inst.costAt o.id := by
  rw [mem_offers, plainPrices, List.getElem?_map, Array.getElem?_toList]
  by_cases hid : o.id < inst.subsetCount
  · have hcost := hcosts o.id hid
    have hsigned : signed (inst.costAt o.id) = inst.costAt o.id := signed_eq (by omega)
    have hget : inst.costs[o.id]? = some (inst.costAt o.id) := by
      rw [Instance.costAt, Array.getElem?_eq_getElem hid, Option.getD_some]
    rw [hget, Option.map_some, hsigned, Option.some.injEq, takenMark]
    omega
  · have hget : inst.costs[o.id]? = none := Array.getElem?_eq_none (Nat.le_of_not_lt hid)
    simp [hget, hid]

/-- Without noise, setting the prices draws nothing. -/
theorem mapM_price_zero (inst : Instance) :
    (inst.costs.toList.mapM fun cost => price (signed 0) (signed cost)) =
      pure (plainPrices inst) := by
  have hprice : (fun cost : Nat => price (signed 0) (signed cost)) =
      fun cost => pure (signed cost) := rfl
  rw [hprice, List.mapM_pure, plainPrices]

theorem ends_plainPrices {Q : List Int → Session → Prop} (h : Q (plainPrices inst) σ) :
    Ends (inst.costs.toList.mapM fun cost => price (signed 0) (signed cost)) E Q σ := by
  rw [mapM_price_zero]
  exact ends_pure h

/-- The ids that are kept when all offers are taken in order, with the costs as prices. -/
def plain (inst : Instance) : Option IdSet :=
  scan inst (offers (plainPrices inst)) (List.range inst.elementCount) .empty

theorem exists_plain (hcoverable : inst.requireCoverable = .ok ())
    (hcosts : ∀ id < inst.subsetCount, inst.costAt id < 2 ^ 63 - 1) :
    ∃ ids, plain inst = some ids ∧ (∀ id ∈ ids, id < inst.subsetCount) ∧
      inst.covers ids = true := by
  refine scan_spec grows_start fun e he => ?_
  obtain ⟨s, hs⟩ := Instance.requireCoverable_iff.mp hcoverable e (List.mem_range.mp he)
  exact ⟨⟨inst.costAt s, s⟩, (mem_plainOffers hcosts).mpr ⟨Instance.mem_holdersOf_lt hs, rfl⟩, hs⟩

theorem ends_construct_plain (hcoverable : inst.requireCoverable = .ok ())
    (hpos : 1 ≤ inst.subsetCount) {ids : IdSet} (hplain : plain inst = some ids) :
    Ends (construct inst 1 0) E (fun ids' _ => ids' = ids) σ := by
  unfold construct
  rw [if_neg (by omega)]
  refine ends_ofExcept_bind hcoverable ?_
  refine ends_bind (ends_plainPrices (Q := fun prices _ => prices = plainPrices inst) rfl) ?_
  rintro _ σ rfl
  refine ends_grow_one.mono (fun _ _ hnone => ?_) fun ids' _ hsome => ?_
  · rw [← plain, hplain] at hnone
    cases hnone
  · rw [← plain, hplain] at hsome
    exact (Option.some.inj hsome).symm

end Greedy

theorem ends_constructed_plain (hcoverable : inst.requireCoverable = .ok ())
    (hpos : 1 ≤ inst.subsetCount) {ids : IdSet} (hplain : Greedy.plain inst = some ids)
    (hids : ∀ id ∈ ids, id < inst.subsetCount) :
    Ends (constructed inst 1 0) E
      (fun s _ => s = ⟨inst.weight ids.toList, ids.card, ids⟩) σ := by
  refine ends_bind (Greedy.ends_construct_plain hcoverable hpos hplain) ?_
  rintro _ σ rfl
  exact ends_ofExcept_ok (Selection.of_eq_ok hids) rfl

/-- Constructions that all give the same selection have it for the best of them. -/
theorem ends_multistart_same {count size noise : Nat} {s : Selection}
    (hconstructed : ∀ σ, Ends (constructed inst size noise) E (fun s' _ => s' = s) σ)
    (hcount : 1 ≤ count) : Ends (multistart inst count size noise) E (fun s' _ => s' = s) σ := by
  have hbest : ∀ left done best σ, best = some s ∨ best = none ∧ 1 ≤ left →
      Ends (multistartFrom inst size noise left done best) E (fun best _ => best = some s) σ := by
    intro left
    induction left with
    | zero =>
        intro done best σ h
        exact ends_pure (h.resolve_right fun h => Nat.not_succ_le_zero 0 h.2)
    | succ left ih =>
        intro done best σ h
        rw [multistartFrom]
        refine ends_bind (hconstructed σ) ?_
        rintro _ σ rfl
        refine ends_ite (fun hany => ih _ _ _ (Or.inl (h.resolve_right ?_))) fun _ => ?_
        · rintro ⟨rfl, _⟩
          cases hany
        · exact ends_note_bind (ih _ _ _ (Or.inl rfl))
  unfold multistart
  refine ends_bind (hbest count 0 none σ (Or.inr ⟨rfl, hcount⟩)) ?_
  rintro _ σ rfl
  exact ends_pure rfl

theorem ends_multistart_plain (hcoverable : inst.requireCoverable = .ok ())
    (hpos : 1 ≤ inst.subsetCount) {ids : IdSet} (hplain : Greedy.plain inst = some ids)
    (hids : ∀ id ∈ ids, id < inst.subsetCount) {count : Nat} (hcount : 1 ≤ count) :
    Ends (multistart inst count 1 0) E
      (fun s _ => s = ⟨inst.weight ids.toList, ids.card, ids⟩) σ :=
  ends_multistart_same (fun _ => ends_constructed_plain hcoverable hpos hplain hids) hcount

theorem ends_cheapestFirst (hcoverable : inst.requireCoverable = .ok ())
    (hpos : 1 ≤ inst.subsetCount) {ids : IdSet} (hplain : Greedy.plain inst = some ids)
    (hids : ∀ id ∈ ids, id < inst.subsetCount) :
    Ends (cheapestFirst inst) E (fun s _ => s = ⟨inst.weight ids.toList, ids.card, ids⟩) σ :=
  ends_multistart_plain hcoverable hpos hplain hids (Nat.le_refl 1)

/-- On a coverable instance with costs below the mark of taken subsets, cheapest-first always gives
the same cover. -/
theorem cheapestFirst_total (hcoverable : inst.requireCoverable = .ok ())
    (hpos : 1 ≤ inst.subsetCount)
    (hcosts : ∀ id < inst.subsetCount, inst.costAt id < 2 ^ 63 - 1) :
    ∃ s, s.IsCover inst ∧ ∀ E σ, Ends (cheapestFirst inst) E (fun s' _ => s' = s) σ := by
  obtain ⟨ids, hplain, hids, hcovers⟩ := Greedy.exists_plain hcoverable hcosts
  exact ⟨⟨inst.weight ids.toList, ids.card, ids⟩, ⟨⟨rfl, rfl, hids⟩, hcovers⟩, fun E σ =>
    ends_cheapestFirst hcoverable hpos hplain hids⟩

end SetCover
