import SetCover.Proofs.Greedy.Construction
import SetCover.Proofs.Instance.Exchange

/-!
# The order of offers

Offers come in the order of their prices, and of their ids where prices are equal. With shortlists
of one offer a construction takes them in that order, so a subset is kept exactly when it is the
first on offer that holds some element. At the costs as prices this is the construction that goes
through the subsets from the cheapest on and keeps each that holds something new.

* `Greedy.mem_scan_iff`, `Greedy.card_scan_le`: the ids that are kept, and how many there are.
* `Instance.Before`, `Instance.takeNew`: the order of the subsets, and what is taken in an order.
* `Greedy.mem_plain_iff`, `Greedy.exists_order`: both say what cheapest-first constructions keep.
-/

namespace SetCover

namespace Greedy

variable {inst : Instance} {pool : List Offer} {left : List Nat} {kept ids : IdSet} {o o' : Offer}
  {e id : Nat}

/-! ## Offers in order -/

theorem Offer.le_iff : o.le o' = true ↔
    o.price < o'.price ∨ o.price = o'.price ∧ o.id ≤ o'.id := by
  simp [Offer.le]

theorem pairwise_le_mergeSort (l : List Offer) :
    (l.mergeSort Offer.le).Pairwise fun o o' => o.le o' = true := by
  apply List.pairwise_mergeSort
  · intro a b c hab hbc
    rw [Offer.le_iff] at hab hbc ⊢
    omega
  · intro a b
    rw [Bool.or_eq_true, Offer.le_iff, Offer.le_iff]
    omega

theorem pairwise_offers (prices : List Int) :
    (offers prices).Pairwise fun o o' => o.le o' = true :=
  pairwise_le_mergeSort _

theorem Offer.eq_of_le_of_le (h : o.le o' = true) (h' : o'.le o = true) : o = o' := by
  obtain ⟨price, id⟩ := o
  obtain ⟨price', id'⟩ := o'
  simp only [Offer.le_iff] at h h'
  rw [Offer.mk.injEq]
  omega

/-- The first offer that holds an element. -/
def firstHolder? (inst : Instance) (pool : List Offer) (e : Nat) : Option Offer :=
  pool.find? fun o => (inst.holdersOf e).contains o.id

theorem firstHolder?_of_holds (h : o.id ∈ inst.holdersOf e) :
    firstHolder? inst (o :: pool) e = some o := by
  simp [firstHolder?, h]

theorem firstHolder?_of_not_holds (h : o.id ∉ inst.holdersOf e) :
    firstHolder? inst (o :: pool) e = firstHolder? inst pool e := by
  simp [firstHolder?, h]

theorem exists_firstHolder (ho : o ∈ pool) (h : o.id ∈ inst.holdersOf e) :
    ∃ a, firstHolder? inst pool e = some a :=
  Option.isSome_iff_exists.mp (List.find?_isSome.mpr ⟨o, ho, IdSet.contains_iff.mpr h⟩)

/-- In ordered offers, the first one that holds an element is the least of those that do. -/
theorem firstHolder?_spec (hordered : pool.Pairwise fun o o' => o.le o' = true)
    (h : firstHolder? inst pool e = some o) :
    o ∈ pool ∧ o.id ∈ inst.holdersOf e ∧
      ∀ o' ∈ pool, o'.id ∈ inst.holdersOf e → o.le o' = true := by
  obtain ⟨hholds, before, after, rfl, hbefore⟩ := List.find?_eq_some_iff_append.mp h
  refine ⟨by simp, by simpa using hholds, ?_⟩
  intro o' ho' hholds'
  rcases List.mem_append.mp ho' with hin | hin
  · have hnot := hbefore o' hin
    rw [IdSet.contains_iff.mpr hholds'] at hnot
    cases hnot
  · rcases List.mem_cons.mp hin with rfl | hin
    · simp [Offer.le_iff]
    · exact (List.pairwise_cons.mp (List.pairwise_append.mp hordered).2.1).1 o' hin

/-! ## What a scan keeps -/

/-- A scan keeps a subset exactly when it is the first on offer that holds some element left. -/
theorem mem_scan_iff (hscan : scan inst pool left kept = some ids) :
    id ∈ ids ↔ id ∈ kept ∨ ∃ e ∈ left, ∃ o, firstHolder? inst pool e = some o ∧ o.id = id := by
  induction pool generalizing left kept with
  | nil =>
      cases left with
      | nil =>
          cases hscan
          simp
      | cons first more => cases hscan
  | cons o pool ih =>
      cases left with
      | nil =>
          cases hscan
          simp
      | cons first more =>
          rw [ih hscan, mem_keptAfter]
          generalize first :: more = left
          constructor
          · intro h
            rcases h with (h | ⟨rfl, e, he, hholds⟩) | ⟨e, he, a, ha, hid⟩
            · exact Or.inl h
            · exact Or.inr ⟨e, he, o, firstHolder?_of_holds hholds, rfl⟩
            · obtain ⟨hin, hnot⟩ := mem_leftAfter.mp he
              exact Or.inr ⟨e, hin, a, (firstHolder?_of_not_holds hnot).trans ha, hid⟩
          · intro h
            rcases h with h | ⟨e, he, a, ha, hid⟩
            · exact Or.inl (Or.inl h)
            · by_cases hholds : o.id ∈ inst.holdersOf e
              · rw [firstHolder?_of_holds hholds] at ha
                cases ha
                exact Or.inl (Or.inr ⟨hid.symm, e, he, hholds⟩)
              · rw [firstHolder?_of_not_holds hholds] at ha
                exact Or.inr ⟨e, mem_leftAfter.mpr ⟨he, hholds⟩, a, ha, hid⟩

/-- Of the offers that hold some element, a subset that is kept is the least. -/
theorem exists_least_of_mem_scan (hordered : pool.Pairwise fun o o' => o.le o' = true)
    (hscan : scan inst pool left .empty = some ids) (hid : id ∈ ids) :
    ∃ e ∈ left, ∃ o ∈ pool, o.id = id ∧ id ∈ inst.holdersOf e ∧
      ∀ o' ∈ pool, o'.id ∈ inst.holdersOf e → o.le o' = true := by
  rcases (mem_scan_iff hscan).mp hid with hempty | ⟨e, he, o, hfirst, rfl⟩
  · exact absurd hempty IdSet.not_mem_empty
  · obtain ⟨ho, hholds, hleast⟩ := firstHolder?_spec hordered hfirst
    exact ⟨e, he, o, ho, rfl, hholds, hleast⟩

/-- Every id that is kept takes an element off those that are left. -/
theorem card_scan_le (hscan : scan inst pool left kept = some ids) :
    ids.card ≤ kept.card + left.length := by
  induction pool generalizing left kept with
  | nil =>
      cases left with
      | nil =>
          cases hscan
          omega
      | cons first more => cases hscan
  | cons o pool ih =>
      cases left with
      | nil =>
          cases hscan
          omega
      | cons first more =>
          have hle := ih hscan
          generalize first :: more = left at hle ⊢
          by_cases hnew : ∃ e ∈ left, o.id ∈ inst.holdersOf e
          · have hfewer := length_leftAfter_lt.mpr hnew
            have hmore := IdSet.card_insert_le kept o.id
            rw [keptAfter, if_pos hnew] at hle
            omega
          · have hshorter : (leftAfter inst left o.id).length ≤ left.length :=
              List.length_filter_le _ _
            rw [keptAfter, if_neg hnew] at hle
            omega

end Greedy

/-! ## The order of the subsets -/

namespace Instance

variable {inst : Instance}

/-- The subset `t` comes before `s`: it is cheaper, or costs as much and has the smaller id. -/
def Before (inst : Instance) (t s : Nat) : Prop :=
  inst.costAt t < inst.costAt s ∨ inst.costAt t = inst.costAt s ∧ t < s

/-- Goes through some subsets until no element is left, and takes each that holds one. -/
def takeNew (inst : Instance) : List Nat → List Nat → List Nat
  | _, [] => []
  | [], _ :: _ => []
  | s :: order, first :: more =>
      if (first :: more).any (inst.contentsOf s).contains then
        s :: inst.takeNew order ((first :: more).filter (!(inst.contentsOf s).contains ·))
      else inst.takeNew order (first :: more)

end Instance

namespace Greedy

variable {inst : Instance} {pool : List Offer} {left : List Nat} {kept ids : IdSet} {id : Nat}

theorem mem_scan_iff_takeNew (hscan : scan inst pool left kept = some ids) :
    id ∈ ids ↔ id ∈ kept ∨ id ∈ inst.takeNew (pool.map (·.id)) left := by
  induction pool generalizing left kept with
  | nil =>
      cases left with
      | nil =>
          cases hscan
          simp [Instance.takeNew]
      | cons first more => cases hscan
  | cons o pool ih =>
      cases left with
      | nil =>
          cases hscan
          simp [Instance.takeNew]
      | cons first more =>
          rw [ih hscan, mem_keptAfter, List.map_cons, Instance.takeNew]
          generalize first :: more = left
          have hany : left.any (inst.contentsOf o.id).contains = true ↔
              ∃ e ∈ left, o.id ∈ inst.holdersOf e := by
            simp [Instance.mem_contentsOf]
          split
          · next hnew =>
              rw [hany] at hnew
              rw [List.mem_cons, leftAfter, ← or_assoc]
              simp [hnew]
          · next hnone =>
              rw [hany] at hnone
              have hsame : leftAfter inst left o.id = left :=
                List.filter_sublist.eq_of_length_le
                  (Nat.le_of_not_lt fun hlt => hnone (length_leftAfter_lt.mp hlt))
              simp [hnone, hsame]

/-! ## Costs as prices -/

theorem nodup_ids_offers (prices : List Int) : ((offers prices).map (·.id)).Nodup := by
  have hperm := (List.mergeSort_perm ((prices.zipIdx.map fun p => (⟨p.1, p.2⟩ : Offer)).filter
    (·.price != takenMark)) Offer.le).map (·.id)
  have hsub := (List.filter_sublist (p := (·.price != takenMark))
    (l := prices.zipIdx.map fun p => (⟨p.1, p.2⟩ : Offer))).map (·.id)
  have hids : (prices.zipIdx.map fun p => (⟨p.1, p.2⟩ : Offer)).map (·.id) =
      List.range' 0 prices.length := by
    rw [List.map_map]
    exact List.zipIdx_map_snd 0 prices
  rw [hids] at hsub
  exact hperm.nodup_iff.mpr (hsub.nodup List.nodup_range')

/-- The order in which the subsets are on offer. -/
theorem exists_order (hcosts : ∀ id < inst.subsetCount, inst.costAt id < 2 ^ 63 - 1)
    (hplain : plain inst = some ids) :
    ∃ order : List Nat, order.Perm (List.range inst.subsetCount) ∧
      order.Pairwise inst.Before ∧
      ids = .ofList (inst.takeNew order (List.range inst.elementCount)) := by
  refine ⟨(offers (plainPrices inst)).map (·.id), ?_, ?_, ?_⟩
  · rw [List.perm_ext_iff_of_nodup (nodup_ids_offers _) List.nodup_range]
    intro id
    rw [List.mem_map, List.mem_range]
    constructor
    · intro h
      obtain ⟨o, ho, rfl⟩ := h
      exact ((mem_plainOffers hcosts).mp ho).1
    · intro hid
      exact ⟨⟨inst.costAt id, id⟩, (mem_plainOffers hcosts).mpr ⟨hid, rfl⟩, rfl⟩
  · have hdistinct := List.pairwise_map.mp (nodup_ids_offers (plainPrices inst))
    refine List.pairwise_map.mpr
      (((pairwise_offers _).and hdistinct).imp_of_mem ?_)
    intro a b ha hb hab
    obtain ⟨hle, hne⟩ := hab
    have hprice := ((mem_plainOffers hcosts).mp ha).2
    have hprice' := ((mem_plainOffers hcosts).mp hb).2
    rw [Offer.le_iff] at hle
    unfold Instance.Before
    omega
  · apply IdSet.ext_mem
    intro id
    rw [mem_scan_iff_takeNew hplain, IdSet.mem_ofList]
    simp

/-- The cheapest-first construction keeps a subset exactly when it holds an element that no subset
before it holds. -/
theorem mem_plain_iff (hcosts : ∀ id < inst.subsetCount, inst.costAt id < 2 ^ 63 - 1)
    (hplain : plain inst = some ids) :
    id ∈ ids ↔ ∃ e ∈ inst.contentsOf id, ∀ t, inst.Before t id → e ∉ inst.contentsOf t := by
  constructor
  · intro h
    obtain ⟨e, _, o, ho, rfl, hholds, hleast⟩ :=
      exists_least_of_mem_scan (pairwise_offers _) hplain h
    refine ⟨e, Instance.mem_contentsOf.mpr hholds, ?_⟩
    intro t hbefore ht
    have ht := Instance.mem_contentsOf.mp ht
    have hoffer : (⟨inst.costAt t, t⟩ : Offer) ∈ offers (plainPrices inst) :=
      (mem_plainOffers hcosts).mpr ⟨Instance.mem_holdersOf_lt ht, rfl⟩
    have hle : o.price < inst.costAt t ∨ o.price = inst.costAt t ∧ o.id ≤ t :=
      Offer.le_iff.mp (hleast _ hoffer ht)
    have hprice := ((mem_plainOffers hcosts).mp ho).2
    unfold Instance.Before at hbefore
    omega
  · intro h
    obtain ⟨e, he, hnew⟩ := h
    have hholds := Instance.mem_contentsOf.mp he
    have hoffer : (⟨inst.costAt id, id⟩ : Offer) ∈ offers (plainPrices inst) :=
      (mem_plainOffers hcosts).mpr ⟨Instance.mem_holdersOf_lt hholds, rfl⟩
    obtain ⟨a, hfirst⟩ := exists_firstHolder hoffer hholds
    obtain ⟨ha, hfirstHolds, hleast⟩ := firstHolder?_spec (pairwise_offers _) hfirst
    have hsame : a.id = id := by
      have hle : a.price < inst.costAt id ∨ a.price = inst.costAt id ∧ a.id ≤ id :=
        Offer.le_iff.mp (hleast _ hoffer hholds)
      have hprice := ((mem_plainOffers hcosts).mp ha).2
      by_contra hne
      have hbefore : inst.Before a.id id := by
        unfold Instance.Before
        omega
      exact hnew a.id hbefore (Instance.mem_contentsOf.mpr hfirstHolds)
    have hrange : e ∈ List.range inst.elementCount :=
      List.mem_range.mpr (Instance.lt_of_mem_holdersOf hholds)
    exact (mem_scan_iff hplain).mpr (Or.inr ⟨e, hrange, a, hfirst, hsame⟩)

end Greedy

end SetCover
