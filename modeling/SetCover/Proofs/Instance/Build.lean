import Mathlib.Data.List.Forall2
import SetCover.Instance.Cover

/-!
# What instances are built from

`Instance.build` looks at its data in a fixed order: first the number of costs, then the number of
rows, then the rows one after another, each of them as a sorted set. So it names the first row with
an id that is out of range, and the smallest such id of that row, wherever it stands in the row.

* `firstStray?_eq_some_iff`: the stray id that is named.
* `IsBuiltFrom`: what an instance has in common with its data.
* `build_eq_error_iff`: the faults, in their order.
* `build_outcome`: when an instance is built, what it is, and why it is refused.
-/

namespace SetCover

namespace IdSet

variable {p : Nat → Bool} {s : IdSet} {a : Nat}

theorem le_of_find?_toList (h : s.toList.find? p = some a) {b : Nat} (hb : b ∈ s)
    (hpb : p b = true) : a ≤ b := by
  obtain ⟨_, before, after, hlist, hbefore⟩ := List.find?_eq_some_iff_append.mp h
  have hascending := s.ascending
  rw [hlist, List.pairwise_append, List.pairwise_cons] at hascending
  rw [mem_def, hlist, List.mem_append, List.mem_cons] at hb
  rcases hb with hb | rfl | hb
  · have hnot := hbefore b hb
    rw [hpb] at hnot
    cases hnot
  · exact Nat.le_refl b
  · exact Nat.le_of_lt (hascending.2.1.1 b hb)

/-- What is found first in the list of a set is the smallest member with the property. -/
theorem find?_toList_eq_some_iff :
    s.toList.find? p = some a ↔ a ∈ s ∧ p a = true ∧ ∀ b ∈ s, p b = true → a ≤ b := by
  constructor
  · intro hfind
    exact ⟨List.mem_of_find?_eq_some hfind, List.find?_some hfind,
      fun b hb hpb => le_of_find?_toList hfind hb hpb⟩
  · rintro ⟨hmem, hp, hleast⟩
    cases hfind : s.toList.find? p with
    | none => exact absurd hp (List.find?_eq_none.mp hfind a hmem)
    | some b =>
        have hab : a ≤ b := hleast b (List.mem_of_find?_eq_some hfind) (List.find?_some hfind)
        have hba : b ≤ a := le_of_find?_toList hfind hmem hp
        rw [Nat.le_antisymm hab hba]

end IdSet

namespace Instance

variable {elementCount subsetCount n e s : Nat} {costs row : List Nat} {rows : List (List Nat)}

/-! ## Stray ids -/

/-- Row `e` is the first one with an id from `n` on, and `s` is the smallest such id of the row. -/
structure IsFirstStray (n : Nat) (rows : List (List Nat)) (e s : Nat) : Prop where
  least : ∃ row, rows[e]? = some row ∧ s ∈ row ∧ n ≤ s ∧ ∀ t ∈ row, n ≤ t → s ≤ t
  first : ∀ i < e, ∀ row, rows[i]? = some row → ∀ t ∈ row, t < n

theorem firstStray?_cons (n : Nat) (set : IdSet) (sets : List IdSet) :
    firstStray? n (set :: sets) =
      match set.toList.find? (n ≤ ·) with
      | some s => some (0, s)
      | none => (firstStray? n sets).map fun p => (p.1 + 1, p.2) := by
  have hrest : ((sets.zipIdx 0).map (Prod.map id (· + 1))).findSome?
      (fun p : IdSet × Nat => (p.1.toList.find? (n ≤ ·)).map fun s => (p.2, s)) =
        (firstStray? n sets).map fun p => (p.1 + 1, p.2) := by
    rw [firstStray?, List.findSome?_map, List.map_findSome?]
    congr 1
    funext p
    cases hfind : p.1.toList.find? (n ≤ ·) <;> simp [hfind]
  rw [firstStray?, List.zipIdx_cons', List.findSome?_cons, hrest]
  cases set.toList.find? (n ≤ ·) <;> rfl

theorem find?_ofList_eq_none_iff :
    (IdSet.ofList row).toList.find? (n ≤ ·) = none ↔ ∀ t ∈ row, t < n := by
  simp [← IdSet.mem_def]

theorem firstStray?_eq_some_iff :
    firstStray? n (rows.map IdSet.ofList) = some (e, s) ↔ IsFirstStray n rows e s := by
  induction rows generalizing e with
  | nil =>
      constructor
      · intro h
        cases h
      · rintro ⟨⟨row, hrow, _⟩, _⟩
        cases hrow
  | cons row rows ih =>
      rw [List.map_cons, firstStray?_cons]
      cases hfind : (IdSet.ofList row).toList.find? (n ≤ ·) with
      | some t =>
          obtain ⟨ht, hnt, hleast⟩ := IdSet.find?_toList_eq_some_iff.mp hfind
          simp only [IdSet.mem_ofList, decide_eq_true_eq] at ht hnt hleast
          constructor
          · intro h
            cases h
            refine ⟨⟨row, rfl, ht, hnt, hleast⟩, fun i hi => ?_⟩
            omega
          · rintro ⟨⟨row', hrow, hs, hns, hleast'⟩, hfirst⟩
            cases e with
            | zero =>
                cases hrow
                rw [Nat.le_antisymm (hleast s hs hns) (hleast' t ht hnt)]
            | succ e =>
                have := hfirst 0 (Nat.succ_pos e) row rfl t ht
                omega
      | none =>
          have hrow := find?_ofList_eq_none_iff.mp hfind
          cases e with
          | zero =>
              constructor
              · intro h
                simp at h
              · rintro ⟨⟨_, hget, hs, hns, _⟩, _⟩
                cases hget
                have := hrow s hs
                omega
          | succ e =>
              have hshift : (firstStray? n (rows.map IdSet.ofList)).map (fun p => (p.1 + 1, p.2)) =
                  some (e + 1, s) ↔ firstStray? n (rows.map IdSet.ofList) = some (e, s) := by
                cases firstStray? n (rows.map IdSet.ofList) <;> simp [Prod.ext_iff]
              rw [hshift, ih]
              constructor
              · rintro ⟨hleast, hfirst⟩
                refine ⟨hleast, fun i hi => ?_⟩
                cases i with
                | zero =>
                    intro row' hget
                    cases hget
                    exact hrow
                | succ i => exact hfirst i (by omega)
              · rintro ⟨hleast, hfirst⟩
                exact ⟨hleast, fun i hi => hfirst (i + 1) (by omega)⟩

theorem exists_isFirstStray (h : ¬ ∀ row ∈ rows, ∀ s ∈ row, s < n) :
    ∃ e s, IsFirstStray n rows e s := by
  cases hfirst : firstStray? n (rows.map IdSet.ofList) with
  | some p => exact ⟨p.1, p.2, firstStray?_eq_some_iff.mp hfirst⟩
  | none =>
      refine absurd (fun row hrow s hs => ?_) h
      have hall := firstStray?_eq_none_iff.mp hfirst
      exact hall _ (List.mem_map_of_mem hrow) s (IdSet.mem_ofList.mpr hs)

/-! ## Instances and their data -/

/-- The ids of a row in ascending order, each of them once. -/
def IsSortingOf (ids row : List Nat) : Prop := ids.Pairwise (· < ·) ∧ ∀ s, s ∈ ids ↔ s ∈ row

/-- What an instance has in common with the costs and rows that it is built from. -/
structure IsBuiltFrom (inst : Instance) (costs : List Nat) (rows : List (List Nat)) : Prop where
  name_eq : inst.name = ""
  costs_eq : inst.costs.toList = costs
  holders : List.Forall₂ (fun set row => IsSortingOf set.toList row) inst.holders.toList rows
  contents_size : inst.contents.size = costs.length
  contents_ascending : ∀ set ∈ inst.contents, set.toList.Pairwise (· < ·)
  contents : ∀ e s, e ∈ (inst.contentsOf s).toList ↔ s ∈ (inst.holdersOf e).toList

/-- An instance is determined by its name, its costs and one of its two relations. -/
theorem eq_of_data {inst inst' : Instance} (hname : inst.name = inst'.name)
    (hcosts : inst.costs = inst'.costs) (hholders : inst.holders = inst'.holders) :
    inst = inst' := by
  obtain ⟨name, costs, holders, contents, _, hcontents⟩ := inst
  obtain ⟨name', costs', holders', contents', _, hcontents'⟩ := inst'
  obtain rfl : name = name' := hname
  obtain rfl : costs = costs' := hcosts
  obtain rfl : holders = holders' := hholders
  obtain rfl : contents = contents' := hcontents.trans hcontents'.symm
  rfl

theorem build_of_stray (hcosts : costs.length = subsetCount) (hrows : rows.length = elementCount)
    (hstray : firstStray? subsetCount (rows.map IdSet.ofList) = some (e, s)) :
    build elementCount subsetCount costs rows =
      .error (.invalid (.strayMember e s subsetCount)) := by
  subst hcosts
  unfold build
  rw [if_neg (not_not_intro rfl), if_neg (not_not_intro hrows)]
  dsimp only
  split
  · next hfound =>
      rw [hstray] at hfound
      cases hfound
      rfl
  · next hnone =>
      rw [hstray] at hnone
      cases hnone

theorem build_of_no_stray (hcosts : costs.length = subsetCount) (hrows : rows.length = elementCount)
    (hnone : firstStray? subsetCount (rows.map IdSet.ofList) = none) :
    ∃ inst, build elementCount subsetCount costs rows = .ok inst ∧ inst.name = "" ∧
      inst.costs = costs.toArray ∧ inst.holders = (rows.map IdSet.ofList).toArray := by
  subst hcosts
  unfold build
  rw [if_neg (not_not_intro rfl), if_neg (not_not_intro hrows)]
  dsimp only
  split
  · next hfound =>
      rw [hnone] at hfound
      cases hfound
  · exact ⟨_, rfl, rfl, rfl, rfl⟩

theorem isBuiltFrom_of_data {inst : Instance} (hname : inst.name = "")
    (hcosts : inst.costs = costs.toArray)
    (hholders : inst.holders = (rows.map IdSet.ofList).toArray) :
    inst.IsBuiltFrom costs rows := by
  refine ⟨hname, by rw [hcosts], ?_, ?_, fun set _ => set.ascending, fun e s => mem_contentsOf⟩
  · rw [hholders]
    refine List.forall₂_map_left_iff.mpr (List.forall₂_same.mpr fun row _ => ?_)
    exact ⟨(IdSet.ofList row).ascending, fun s => IdSet.mem_ofList⟩
  · rw [inst.contents_eq, size_invert, hcosts]
    rfl

theorem build_of_known (hcosts : costs.length = subsetCount) (hrows : rows.length = elementCount)
    (hknown : ∀ row ∈ rows, ∀ s ∈ row, s < subsetCount) :
    ∃ inst, build elementCount subsetCount costs rows = .ok inst ∧ inst.IsBuiltFrom costs rows := by
  have hnone : firstStray? subsetCount (rows.map IdSet.ofList) = none := by
    refine firstStray?_eq_none_iff.mpr fun set hset s hs => ?_
    obtain ⟨row, hrow, rfl⟩ := List.mem_map.mp hset
    exact hknown row hrow s (IdSet.mem_ofList.mp hs)
  obtain ⟨inst, hok, hname, hcosts, hholders⟩ := build_of_no_stray hcosts hrows hnone
  exact ⟨inst, hok, isBuiltFrom_of_data hname hcosts hholders⟩

/-- Why data is refused: the counts are looked at first, and of the rows the first one with a stray
id. -/
theorem build_eq_error_iff {fault : Fault} :
    build elementCount subsetCount costs rows = .error fault ↔
      (costs.length ≠ subsetCount ∧ fault = .invalid (.costCount subsetCount costs.length)) ∨
      (costs.length = subsetCount ∧ rows.length ≠ elementCount ∧
        fault = .invalid (.rowCount elementCount rows.length)) ∨
      (costs.length = subsetCount ∧ rows.length = elementCount ∧
        ∃ e s, IsFirstStray subsetCount rows e s ∧
          fault = .invalid (.strayMember e s subsetCount)) := by
  constructor
  · intro h
    by_cases hcosts : costs.length = subsetCount
    · by_cases hrows : rows.length = elementCount
      · by_cases hknown : ∀ row ∈ rows, ∀ s ∈ row, s < subsetCount
        · obtain ⟨inst, hok, _⟩ := build_of_known hcosts hrows hknown
          rw [hok] at h
          cases h
        · obtain ⟨e, s, hstray⟩ := exists_isFirstStray hknown
          rw [build_of_stray hcosts hrows (firstStray?_eq_some_iff.mpr hstray)] at h
          cases h
          exact Or.inr (Or.inr ⟨hcosts, hrows, e, s, hstray, rfl⟩)
      · unfold build at h
        rw [if_neg (not_not_intro hcosts), if_pos hrows] at h
        cases h
        exact Or.inr (Or.inl ⟨hcosts, hrows, rfl⟩)
    · unfold build at h
      rw [if_pos hcosts] at h
      cases h
      exact Or.inl ⟨hcosts, rfl⟩
  · rintro (⟨hcosts, rfl⟩ | ⟨hcosts, hrows, rfl⟩ | ⟨hcosts, hrows, e, s, hstray, rfl⟩)
    · unfold build
      rw [if_pos hcosts]
    · unfold build
      rw [if_neg (not_not_intro hcosts), if_pos hrows]
    · exact build_of_stray hcosts hrows (firstStray?_eq_some_iff.mpr hstray)

theorem build_eq_ok {inst : Instance} (h : build elementCount subsetCount costs rows = .ok inst) :
    costs.length = subsetCount ∧ rows.length = elementCount ∧
      (∀ row ∈ rows, ∀ s ∈ row, s < subsetCount) ∧ inst.IsBuiltFrom costs rows := by
  have hrefused : ∀ fault, ¬ build elementCount subsetCount costs rows = .error fault := by
    intro fault herror
    rw [h] at herror
    cases herror
  have hcosts : costs.length = subsetCount := by
    by_contra hne
    exact hrefused _ (build_eq_error_iff.mpr (Or.inl ⟨hne, rfl⟩))
  have hrows : rows.length = elementCount := by
    by_contra hne
    exact hrefused _ (build_eq_error_iff.mpr (Or.inr (Or.inl ⟨hcosts, hne, rfl⟩)))
  have hknown : ∀ row ∈ rows, ∀ s ∈ row, s < subsetCount := by
    by_contra hstray
    obtain ⟨e, s, hfirst⟩ := exists_isFirstStray hstray
    exact hrefused _ (build_eq_error_iff.mpr (Or.inr (Or.inr ⟨hcosts, hrows, e, s, hfirst, rfl⟩)))
  obtain ⟨inst', hok, hbuilt⟩ := build_of_known hcosts hrows hknown
  rw [h] at hok
  cases hok
  exact ⟨hcosts, hrows, hknown, hbuilt⟩

theorem build_congr {rows' : List (List Nat)}
    (h : List.Forall₂ (fun row row' => ∀ s, s ∈ row ↔ s ∈ row') rows rows') :
    build elementCount subsetCount costs rows' = build elementCount subsetCount costs rows := by
  have hsets : rows'.map IdSet.ofList = rows.map IdSet.ofList := by
    induction h with
    | nil => rfl
    | cons hrow _ ih =>
        rw [List.map_cons, List.map_cons, ih]
        congr 1
        exact IdSet.ext_mem fun s => by simp [hrow s]
  have hlength : rows'.length = rows.length := h.length_eq.symm
  by_cases hcosts : costs.length = subsetCount
  · by_cases hrows : rows.length = elementCount
    · cases hfirst : firstStray? subsetCount (rows.map IdSet.ofList) with
      | some p =>
          rw [build_of_stray hcosts hrows hfirst,
            build_of_stray hcosts (hlength.trans hrows) (hsets ▸ hfirst)]
      | none =>
          obtain ⟨inst, hok, hdata⟩ := build_of_no_stray hcosts hrows hfirst
          obtain ⟨inst', hok', hdata'⟩ :=
            build_of_no_stray hcosts (hlength.trans hrows) (hsets ▸ hfirst)
          rw [hok, hok', eq_of_data (hdata'.1.trans hdata.1.symm)
            (hdata'.2.1.trans hdata.2.1.symm) (by rw [hdata'.2.2, hdata.2.2, hsets])]
    · unfold build
      simp only [hlength, if_pos hrows, ite_not]
  · unfold build
    rw [if_pos hcosts, if_pos hcosts]

/-- **Building an instance.** Data is accepted exactly when both counts are right and all ids are
in range. Then the rows are sorted, without repetitions, the contents are their inverse, and each
row has mattered only as a set. Data that is refused is refused for the first of these reasons. -/
theorem build_outcome (elementCount subsetCount : Nat) (costs : List Nat)
    (rows : List (List Nat)) :
    ((∃ inst, build elementCount subsetCount costs rows = .ok inst) ↔
      costs.length = subsetCount ∧ rows.length = elementCount ∧
        ∀ row ∈ rows, ∀ s ∈ row, s < subsetCount) ∧
    (∀ inst, build elementCount subsetCount costs rows = .ok inst → inst.IsBuiltFrom costs rows) ∧
    (∀ rows', List.Forall₂ (fun row row' => ∀ s, s ∈ row ↔ s ∈ row') rows rows' →
      build elementCount subsetCount costs rows' = build elementCount subsetCount costs rows) ∧
    ∀ fault, build elementCount subsetCount costs rows = .error fault ↔
      (costs.length ≠ subsetCount ∧ fault = .invalid (.costCount subsetCount costs.length)) ∨
      (costs.length = subsetCount ∧ rows.length ≠ elementCount ∧
        fault = .invalid (.rowCount elementCount rows.length)) ∨
      (costs.length = subsetCount ∧ rows.length = elementCount ∧
        ∃ e s, IsFirstStray subsetCount rows e s ∧
          fault = .invalid (.strayMember e s subsetCount)) := by
  refine ⟨⟨?_, ?_⟩, ?_, fun rows' => build_congr, fun fault => build_eq_error_iff⟩
  · rintro ⟨inst, hok⟩
    obtain ⟨hcosts, hrows, hknown, _⟩ := build_eq_ok hok
    exact ⟨hcosts, hrows, hknown⟩
  · rintro ⟨hcosts, hrows, hknown⟩
    obtain ⟨inst, hok, _⟩ := build_of_known hcosts hrows hknown
    exact ⟨inst, hok⟩
  · intro inst hok
    exact (build_eq_ok hok).2.2.2

/-- Rows out of order and with repetitions, once with known ids and once with two stray ones. -/
theorem build_outcome_of_unsorted :
    (∃ inst, build 2 3 [5, 7, 9] [[2, 0, 2], [1, 0]] = .ok inst ∧
      inst.IsBuiltFrom [5, 7, 9] [[2, 0, 2], [1, 0]]) ∧
    build 2 3 [5, 7, 9] [[1, 1], [4, 0, 3]] = .error (.invalid (.strayMember 1 3 3)) := by
  constructor
  · obtain ⟨hiff, hbuilt, _⟩ := build_outcome 2 3 [5, 7, 9] [[2, 0, 2], [1, 0]]
    obtain ⟨inst, hok⟩ := hiff.mpr ⟨rfl, rfl, by decide⟩
    exact ⟨inst, hok, hbuilt inst hok⟩
  · obtain ⟨_, _, _, hfault⟩ := build_outcome 2 3 [5, 7, 9] [[1, 1], [4, 0, 3]]
    have hstray : IsFirstStray 3 [[1, 1], [4, 0, 3]] 1 3 :=
      ⟨⟨[4, 0, 3], rfl, by decide, by decide, by decide⟩, fun i hi row hrow => by
        obtain rfl : i = 0 := by omega
        cases hrow
        decide⟩
    exact (hfault _).mpr (Or.inr (Or.inr ⟨rfl, rfl, 1, 3, hstray, rfl⟩))

end Instance

end SetCover
