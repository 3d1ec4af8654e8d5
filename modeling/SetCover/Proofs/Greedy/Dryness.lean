import SetCover.Proofs.Greedy.Construction

/-!
# Constructions that run dry

A construction takes offers until no element is left. Whatever words are drawn, it fails exactly
when nothing on offer holds some element, and then with the first such element. What is on offer
depends on the prices: a subset whose price is the mark of taken subsets is not on offer from the
start. A price moved by noise never is that mark, while a cost without noise can be.

* `Greedy.ends_grow_find`: the first element that no offer holds decides how a construction ends.
* `Instance.NoiseInRange`, `Instance.IsOpen`: prices that are numbers of 64 bits, and the subsets
  that are on offer at them.
* `Greedy.ends_construct_open`: a construction on an instance that can be covered.
* `Greedy.Fails`, `construct_error_iff`: what a construction fails with, and when.
-/

namespace SetCover

open Search

variable {inst : Instance} {size noise : Nat} {E : Fault → Session → Prop} {σ : Session}

namespace Greedy

variable {pool : List Offer} {left : List Nat} {kept : IdSet} {o : Offer} {e : Nat}

/-! ## Running dry -/

/-- No offer holds the element. -/
def isMissed (inst : Instance) (pool : List Offer) (e : Nat) : Bool :=
  pool.all fun o => !(inst.holdersOf e).contains o.id

theorem isMissed_iff : isMissed inst pool e = true ↔ ∀ o ∈ pool, o.id ∉ inst.holdersOf e := by
  simp only [isMissed, List.all_eq_true, Bool.not_eq_true', ← Bool.not_eq_true,
    IdSet.contains_iff]

theorem isMissed_erase (ho : o ∈ pool) : isMissed inst pool e =
    (!(inst.holdersOf e).contains o.id && isMissed inst (pool.erase o) e) := by
  rw [isMissed, (List.perm_cons_erase ho).all_eq, List.all_cons, isMissed]

/-- Taking an offer does not change which element is the first that is missed. -/
theorem find?_leftAfter (ho : o ∈ pool) :
    (leftAfter inst left o.id).find? (isMissed inst (pool.erase o)) =
      left.find? (isMissed inst pool) := by
  have hcontents : ∀ e, (inst.contentsOf o.id).contains e = (inst.holdersOf e).contains o.id := by
    intro e
    rw [Bool.eq_iff_iff, IdSet.contains_iff, IdSet.contains_iff, Instance.mem_contentsOf]
  rw [leftAfter, List.find?_filter]
  congr 1
  funext e
  rw [isMissed_erase ho, hcontents]
  simp

/-- The first element left that no offer holds decides how a construction ends. -/
theorem ends_grow_find (hsize : 0 < size) :
    Ends (grow inst size pool left kept)
      (fun fault _ => ∃ e, fault = .uncoverable e ∧ left.find? (isMissed inst pool) = some e)
      (fun _ _ => left.find? (isMissed inst pool) = none) σ := by
  -- every step takes an offer out of the pool
  induction hn : pool.length using Nat.strongRecOn generalizing pool left kept σ with
  | ind n ih =>
      subst hn
      cases left with
      | nil =>
          rw [grow]
          exact ends_pure rfl
      | cons first more =>
          apply ends_grow_cons hsize
          · intro hdry
            subst hdry
            exact ⟨first, rfl, rfl⟩
          · intro o ho σ
            have hmem := mem_of_mem_shortlist ho
            have hshorter : (pool.erase o).length < pool.length := by
              rw [List.length_erase_of_mem hmem]
              exact Nat.sub_one_lt_of_lt (List.length_pos_of_mem hmem)
            rw [← find?_leftAfter hmem]
            exact ih _ hshorter rfl

/-! ## Prices -/

theorem ends_between {low high : Int} (h : low < high) :
    Ends (between low high) E (fun n _ => low ≤ n ∧ n < high) σ := by
  unfold between
  apply ends_below_bind (by omega)
  intro n source
  apply ends_pure
  have hn := n.isLt
  omega

/-- A price that a cost may lead to: the cost itself, or a number near it where there is noise. -/
def IsPrice (amount cost p : Int) : Prop :=
  amount ≤ 0 ∧ p = cost ∨ 0 < amount ∧ cost - amount ≤ p ∧ p < cost + amount

theorem ends_price {amount cost : Int}
    (hrange : 0 < amount → -2 ^ 63 ≤ cost - amount ∧ cost + amount < 2 ^ 63) :
    Ends (price amount cost) E (fun p _ => IsPrice amount cost p) σ := by
  unfold price
  apply ends_ite
  · intro hnone
    exact ends_pure (Or.inl ⟨hnone, rfl⟩)
  · intro hsome
    have hpos : 0 < amount := Int.not_le.mp hsome
    rw [if_pos (hrange hpos)]
    exact (ends_between (by omega)).weaken fun p _ hp => Or.inr ⟨hpos, hp⟩

/-- Noise keeps a price clear of the mark of taken subsets. -/
theorem IsPrice.ne_takenMark_iff {amount cost p : Int} (hp : IsPrice amount cost p)
    (hrange : 0 < amount → cost + amount < 2 ^ 63) :
    p ≠ takenMark ↔ 0 < amount ∨ cost ≠ takenMark := by
  unfold takenMark
  rcases hp with ⟨hnone, rfl⟩ | ⟨hpos, _, hlt⟩
  · omega
  · have := hrange hpos
    omega

end Greedy

/-- Every price that noise may lead to is a signed number of 64 bits. -/
def Instance.NoiseInRange (inst : Instance) (noise : Nat) : Prop :=
  0 < signed noise → ∀ s < inst.subsetCount,
    -2 ^ 63 ≤ signed (inst.costAt s) - signed noise ∧
      signed (inst.costAt s) + signed noise < 2 ^ 63

/-- The subset is on offer when a construction starts. -/
def Instance.IsOpen (inst : Instance) (noise s : Nat) : Prop :=
  0 < signed noise ∨ signed (inst.costAt s) ≠ Greedy.takenMark

/-- Every subset has a price that its cost may lead to. -/
def Instance.PricedBy (inst : Instance) (noise : Nat) (prices : List Int) : Prop :=
  prices.length = inst.subsetCount ∧
    ∀ s p, prices[s]? = some p → Greedy.IsPrice (signed noise) (signed (inst.costAt s)) p

namespace Greedy

theorem ends_prices (hrange : inst.NoiseInRange noise) :
    Ends (inst.costs.toList.mapM fun cost => price (signed noise) (signed cost)) E
      (fun prices _ => inst.PricedBy noise prices) σ := by
  -- what is known of a cost in the list: whose it is
  have hwhose : ∀ {s cost : Nat}, inst.costs.toList[s]? = some cost →
      s < inst.subsetCount ∧ inst.costAt s = cost := by
    intro s cost h
    rw [Array.getElem?_toList] at h
    obtain ⟨hlt, -⟩ := Array.getElem?_eq_some_iff.mp h
    exact ⟨hlt, by rw [Instance.costAt, h, Option.getD_some]⟩
  apply (ends_mapM (fun cost p => IsPrice (signed noise) (signed cost) p)
    inst.costs.toList _ ?_).weaken
  · rintro prices _ ⟨hlength, hprices⟩
    have hlength : prices.length = inst.subsetCount := by
      rw [hlength, Array.length_toList, Instance.subsetCount]
    refine ⟨hlength, ?_⟩
    intro s p hp
    obtain ⟨hlt, -⟩ := List.getElem?_eq_some_iff.mp hp
    have hcost : inst.costs.toList[s]? = some (inst.costAt s) := by
      rw [hlength] at hlt
      rw [Array.getElem?_toList, Instance.costAt, Array.getElem?_eq_getElem hlt, Option.getD_some]
    exact hprices s _ p hcost hp
  · intro cost hcost σ
    obtain ⟨s, hs⟩ := List.mem_iff_getElem?.mp hcost
    obtain ⟨hlt, rfl⟩ := hwhose hs
    apply ends_price
    intro hpos
    exact hrange hpos s hlt

/-- On offer are the open subsets, each at a price that its cost may lead to. -/
theorem exists_mem_offers_iff {prices : List Int} (hprices : inst.PricedBy noise prices)
    (hrange : inst.NoiseInRange noise) {s : Nat} :
    (∃ o ∈ offers prices, o.id = s) ↔ s < inst.subsetCount ∧ inst.IsOpen noise s := by
  obtain ⟨hlength, hprice⟩ := hprices
  constructor
  · intro h
    obtain ⟨o, ho, rfl⟩ := h
    obtain ⟨hget, hmark⟩ := mem_offers.mp ho
    obtain ⟨hlt, -⟩ := List.getElem?_eq_some_iff.mp hget
    rw [hlength] at hlt
    exact ⟨hlt, ((hprice _ _ hget).ne_takenMark_iff fun hpos => (hrange hpos _ hlt).2).mp hmark⟩
  · intro h
    obtain ⟨hlt, hopen⟩ := h
    have hget : prices[s]? = some prices[s] := List.getElem?_eq_getElem (hlength ▸ hlt)
    have hmark := ((hprice _ _ hget).ne_takenMark_iff fun hpos => (hrange hpos _ hlt).2).mpr hopen
    exact ⟨⟨prices[s], s⟩, mem_offers.mpr ⟨hget, hmark⟩, rfl⟩

/-- At such prices, an element is missed exactly when no open subset holds it. -/
theorem isMissed_offers {prices : List Int} (hprices : inst.PricedBy noise prices)
    (hrange : inst.NoiseInRange noise) :
    isMissed inst (offers prices) e = true ↔ ¬ inst.Holds (inst.IsOpen noise) e := by
  have hoffered := fun s => exists_mem_offers_iff (s := s) hprices hrange
  rw [isMissed_iff]
  constructor
  · intro hmissed hholds
    obtain ⟨s, hs, hopen⟩ := hholds
    obtain ⟨o, ho, rfl⟩ := (hoffered s).mpr ⟨Instance.mem_holdersOf_lt hs, hopen⟩
    exact hmissed o ho hs
  · intro hbare o ho hs
    exact hbare ⟨o.id, hs, ((hoffered o.id).mp ⟨o, ho, rfl⟩).2⟩

/-! ## Constructions -/

/-- On an instance that can be covered, the open subsets decide how a construction ends. -/
theorem ends_construct_open (hcoverable : inst.requireCoverable = .ok ())
    (hrange : inst.NoiseInRange noise) (hsize : 1 ≤ size) (hle : size ≤ inst.subsetCount) :
    Ends (construct inst size noise)
      (fun fault _ =>
        ∃ e, fault = .uncoverable e ∧ inst.FirstMissed (inst.IsOpen noise) e)
      (fun ids _ => inst.Covers (inst.IsOpen noise) ∧ ∀ id ∈ ids, id < inst.subsetCount) σ := by
  unfold construct
  rw [if_neg (by omega)]
  apply ends_ofExcept_bind hcoverable
  apply ends_bind (ends_prices hrange)
  intro prices σ hprices
  have hgrown : Ends (grow inst size (offers prices) (List.range inst.elementCount) .empty) anyFault
      (fun ids _ => ∀ id ∈ ids, id < inst.subsetCount) σ :=
    (ends_grow hsize grows_start).mono (fun _ _ _ => trivial) fun ids _ h => h.1
  apply ((ends_grow_find hsize).also hgrown).mono
  · intro fault _ ⟨e, hfault, hfind⟩
    obtain ⟨hmissed, he, hbefore⟩ := List.find?_range_eq_some.mp hfind
    refine ⟨e, hfault, List.mem_range.mp he, (isMissed_offers hprices hrange).mp hmissed, ?_⟩
    intro e' hlt
    by_contra hbare
    have hmissed' := (isMissed_offers hprices hrange).mpr hbare
    have hnot := hbefore e' hlt
    rw [hmissed'] at hnot
    cases hnot
  · intro ids _ ⟨hfind, hids⟩
    refine ⟨?_, hids⟩
    intro e he
    by_contra hbare
    have hmissed := (isMissed_offers hprices hrange).mpr hbare
    have hnot := List.find?_range_eq_none.mp hfind e he
    rw [hmissed] at hnot
    cases hnot

/-- What a construction fails with. A construction runs dry where the open subsets miss an element
that a closed one holds. -/
inductive Fails (inst : Instance) (size noise : Nat) : Fault → Prop
  | refused : ¬ (1 ≤ size ∧ size ≤ inst.subsetCount) →
      Fails inst size noise (.invalid (.shortlistSize size inst.subsetCount))
  | bare {e : Nat} : 1 ≤ size ∧ size ≤ inst.subsetCount → inst.FirstMissed (fun _ => True) e →
      Fails inst size noise (.uncoverable e)
  | dry {e : Nat} : 1 ≤ size ∧ size ≤ inst.subsetCount → inst.requireCoverable = .ok () →
      inst.FirstMissed (inst.IsOpen noise) e → Fails inst size noise (.uncoverable e)

theorem ends_construct_fails (hrange : inst.NoiseInRange noise) :
    Ends (construct inst size noise) (fun fault _ => Fails inst size noise fault)
      (fun _ _ => (1 ≤ size ∧ size ≤ inst.subsetCount) ∧ inst.Covers (inst.IsOpen noise)) σ := by
  by_cases hsize : 1 ≤ size ∧ size ≤ inst.subsetCount
  · cases hcheck : inst.requireCoverable with
    | error fault =>
        obtain ⟨e, rfl, he⟩ := Instance.requireCoverable_eq_error_iff.mp hcheck
        unfold construct
        rw [if_neg (by omega)]
        apply ends_bind (R := fun _ _ => False)
        · apply ends_ofExcept
          · intro _ hok
            rw [hcheck] at hok
            cases hok
          · intro fault herror
            rw [hcheck] at herror
            cases herror
            exact .bare hsize he
        · intro _ _ hfalse
          exact hfalse.elim
    | ok _ =>
        apply (ends_construct_open hcheck hrange hsize.1 hsize.2).mono
        · intro fault _ ⟨e, hfault, he⟩
          subst hfault
          exact .dry hsize hcheck he
        · intro ids _ ⟨hcovers, _⟩
          exact ⟨hsize, hcovers⟩
  · unfold construct
    rw [if_pos (by omega)]
    exact ends_throw (.refused hsize)

/-- A construction that can end well cannot fail. -/
theorem not_fails {fault : Fault} (hsize : 1 ≤ size ∧ size ≤ inst.subsetCount)
    (hcovers : inst.Covers (inst.IsOpen noise)) : ¬ Fails inst size noise fault := by
  intro hfails
  cases hfails with
  | refused hrefused => exact hrefused hsize
  | bare _ he =>
      obtain ⟨he, hmissed, _⟩ := he
      obtain ⟨s, hs, _⟩ := hcovers _ he
      exact hmissed ⟨s, hs, trivial⟩
  | dry _ _ he => exact he.2.1 (hcovers _ he.1)

/-- There is one fault at most. -/
theorem Fails.unique {fault fault' : Fault} (h : Fails inst size noise fault)
    (h' : Fails inst size noise fault') : fault = fault' := by
  cases h with
  | refused hrefused =>
      cases h' with
      | refused _ => rfl
      | bare hsize _ => exact absurd hsize hrefused
      | dry hsize _ _ => exact absurd hsize hrefused
  | bare hsize he =>
      cases h' with
      | refused hrefused => exact absurd hsize hrefused
      | bare _ he' => rw [he.unique he']
      | dry _ hcoverable _ =>
          exact absurd (Instance.requireCoverable_iff_covers.mp hcoverable)
            (Instance.exists_firstMissed_iff.mp ⟨_, he⟩)
  | dry hsize hcoverable he =>
      cases h' with
      | refused hrefused => exact absurd hsize hrefused
      | bare _ he' =>
          exact absurd (Instance.requireCoverable_iff_covers.mp hcoverable)
            (Instance.exists_firstMissed_iff.mp ⟨_, he'⟩)
      | dry _ _ he' => rw [he.unique he']

/-- Where all subsets are open, only an element that no subset holds is a reason to fail. -/
theorem fails_iff_of_open (hopen : ∀ s < inst.subsetCount, inst.IsOpen noise s) {fault : Fault} :
    Fails inst size noise fault ↔
      (size = 0 ∨ inst.subsetCount < size) ∧
          fault = .invalid (.shortlistSize size inst.subsetCount) ∨
        (1 ≤ size ∧ size ≤ inst.subsetCount) ∧
          ∃ e, fault = .uncoverable e ∧ inst.FirstMissed (fun _ => True) e := by
  constructor
  · intro hfails
    cases hfails with
    | refused hrefused => exact Or.inl ⟨by omega, rfl⟩
    | bare hsize he => exact Or.inr ⟨hsize, _, rfl, he⟩
    | dry _ hcoverable he =>
        obtain ⟨s, hs⟩ := Instance.requireCoverable_iff.mp hcoverable _ he.1
        exact absurd ⟨s, hs, hopen s (Instance.mem_holdersOf_lt hs)⟩ he.2.1
  · rintro (⟨hrefused, rfl⟩ | ⟨hsize, e, rfl, he⟩)
    · exact .refused (by omega)
    · exact .bare hsize he

/-- **When a construction fails.** Whatever words are drawn, a construction for which no price
leaves its range fails exactly for one of three reasons: a shortlist of impossible size, an element
that no subset holds, or one that only subsets hold whose price is the mark of taken subsets; the
fault names the first such element. Otherwise it gives a result. Where no subset is marked from the
start, the third reason does not come up. -/
theorem construct_error_iff (inst : Instance) (size noise : Nat)
    (hrange : inst.NoiseInRange noise) (σ : Session) :
    (∀ fault, (∃ σ', (construct inst size noise).run σ = .error fault σ') ↔
        Fails inst size noise fault) ∧
      ((∃ ids σ', (construct inst size noise).run σ = .ok ids σ') ↔
        (1 ≤ size ∧ size ≤ inst.subsetCount) ∧ inst.Covers (inst.IsOpen noise)) ∧
      ((∀ s < inst.subsetCount, inst.IsOpen noise s) →
        ∀ fault, (∃ σ', (construct inst size noise).run σ = .error fault σ') ↔
          (size = 0 ∨ inst.subsetCount < size) ∧
              fault = .invalid (.shortlistSize size inst.subsetCount) ∨
            (1 ≤ size ∧ size ≤ inst.subsetCount) ∧
              ∃ e, fault = .uncoverable e ∧ inst.FirstMissed (fun _ => True) e) := by
  have hends : Ends (construct inst size noise) _ _ σ := ends_construct_fails hrange
  have herror : ∀ fault, (∃ σ', (construct inst size noise).run σ = .error fault σ') ↔
      Fails inst size noise fault := by
    intro fault
    constructor
    · intro ⟨σ', hrun⟩
      exact hends.of_run_error hrun
    · intro hfails
      cases hrun : (construct inst size noise).run σ with
      | ok ids σ' =>
          obtain ⟨hsize, hcovers⟩ := hends.of_run hrun
          exact absurd hfails (not_fails hsize hcovers)
      | error fault' σ' =>
          obtain rfl := hfails.unique (hends.of_run_error hrun)
          exact ⟨σ', rfl⟩
  refine ⟨herror, ?_, ?_⟩
  · constructor
    · intro ⟨ids, σ', hrun⟩
      exact hends.of_run hrun
    · intro ⟨hsize, hcovers⟩
      cases hrun : (construct inst size noise).run σ with
      | ok ids σ' => exact ⟨ids, σ', rfl⟩
      | error fault σ' =>
          exact absurd (hends.of_run_error hrun) (not_fails hsize hcovers)
  · intro hopen fault
    rw [herror, fails_iff_of_open hopen]

/-- The largest cost that noise of one leaves in range. -/
theorem construct_ok_of_noise :
    ∃ inst, Instance.build 1 1 [2 ^ 63 - 2] [[0]] = .ok inst ∧ inst.NoiseInRange 1 ∧
      ∃ ids σ', (construct inst 1 1).run ⟨.ofStream (.ofList [3, 1, 4]), []⟩ = .ok ids σ' := by
  obtain ⟨inst, hbuild, hcount, hcost, hcoverable⟩ :
      ∃ inst, Instance.build 1 1 [2 ^ 63 - 2] [[0]] = .ok inst ∧ inst.subsetCount = 1 ∧
        inst.costAt 0 = 2 ^ 63 - 2 ∧ inst.requireCoverable = .ok () :=
    ⟨_, rfl, rfl, rfl, by with_unfolding_all rfl⟩
  have hrange : inst.NoiseInRange 1 := by
    intro _ s hs
    obtain rfl : s = 0 := by omega
    rw [hcost]
    decide
  refine ⟨inst, hbuild, hrange, ?_⟩
  apply (construct_error_iff inst 1 1 hrange _).2.1.mpr
  refine ⟨by omega, ?_⟩
  intro e he
  obtain ⟨s, hs⟩ := Instance.requireCoverable_iff.mp hcoverable e he
  exact ⟨s, hs, Or.inl (by decide)⟩

/-- The only subset has the mark as its price, so it is not on offer, though it holds the only
element. -/
theorem construct_error_of_mark :
    ∃ inst, Instance.build 1 1 [2 ^ 63 - 1] [[0]] = .ok inst ∧ inst.requireCoverable = .ok () ∧
      inst.NoiseInRange 0 ∧
      ∃ σ', (construct inst 1 0).run ⟨.ofStream (.ofList [3, 1, 4]), []⟩ =
        .error (.uncoverable 0) σ' := by
  obtain ⟨inst, hbuild, hcount, hcost, hcoverable, hbare⟩ :
      ∃ inst, Instance.build 1 1 [2 ^ 63 - 1] [[0]] = .ok inst ∧ inst.subsetCount = 1 ∧
        inst.costAt 0 = 2 ^ 63 - 1 ∧ inst.requireCoverable = .ok () ∧ inst.elementCount = 1 :=
    ⟨_, rfl, rfl, rfl, by with_unfolding_all rfl, rfl⟩
  have hrange : inst.NoiseInRange 0 := fun hpos => absurd hpos (by decide)
  refine ⟨inst, hbuild, hcoverable, hrange, ?_⟩
  have hends : Ends (construct inst 1 0) _ _ ⟨.ofStream (.ofList [3, 1, 4]), []⟩ :=
    ends_construct_open hcoverable hrange (Nat.le_refl 1) (Nat.le_of_eq hcount.symm)
  have hmissed : inst.FirstMissed (inst.IsOpen 0) 0 := by
    refine ⟨by omega, ?_, fun e' hlt => absurd hlt (Nat.not_lt_zero e')⟩
    intro ⟨s, hs, hopen⟩
    obtain rfl : s = 0 := by
      have := Instance.mem_holdersOf_lt hs
      omega
    rcases hopen with hpos | hmark
    · exact absurd hpos (by decide)
    · rw [hcost] at hmark
      exact hmark (by decide)
  cases hrun : (construct inst 1 0).run ⟨.ofStream (.ofList [3, 1, 4]), []⟩ with
  | ok ids σ' => exact absurd ((hends.of_run hrun).1 0 hmissed.1) hmissed.2.1
  | error fault σ' =>
      obtain ⟨e, rfl, he⟩ := hends.of_run_error hrun
      rw [he.unique hmissed]
      exact ⟨σ', rfl⟩

end Greedy
end SetCover
