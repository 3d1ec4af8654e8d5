import Mathlib.Data.List.Perm.Subperm
import SetCover.Selection

/-!
# The weight of sets

The weight of a set of ids is a sum over its members, in whatever order they are listed. So a
member that comes in or goes out changes the weight by its own cost, and no set of known ids
weighs more than all subsets together.

* `weight_insert`, `weight_erase`, `card_insert_le`, `card_erase`: one member more or less.
* `weight_le_totalCost`: the bound by the cost of all subsets.
* `of_eq_ok`: the selection of known ids.
-/

namespace SetCover

namespace IdSet

theorem nodup (s : IdSet) : s.toList.Nodup :=
  s.ascending.imp fun h => Nat.ne_of_lt h

theorem insert_of_mem {a : Nat} {s : IdSet} (h : a ∈ s) : s.insert a = s := by
  apply ext_mem
  intro c
  rw [mem_insert]
  constructor
  · rintro (rfl | hc)
    · exact h
    · exact hc
  · exact Or.inr

theorem insert_erase {a : Nat} {s : IdSet} (h : a ∈ s) : (s.erase a).insert a = s := by
  apply ext_mem
  intro c
  rw [mem_insert, mem_erase]
  constructor
  · rintro (rfl | hc)
    · exact h
    · exact hc.1
  · intro hc
    by_cases hca : c = a
    · exact Or.inl hca
    · exact Or.inr ⟨hc, hca⟩

theorem toList_insert_perm {a : Nat} {s : IdSet} (h : a ∉ s) :
    (s.insert a).toList.Perm (a :: s.toList) := by
  refine (List.perm_ext_iff_of_nodup (nodup _) (List.nodup_cons.mpr ⟨h, nodup s⟩)).mpr ?_
  intro c
  rw [← mem_def, mem_insert, List.mem_cons, mem_def]

theorem not_mem_erase {a : Nat} {s : IdSet} : a ∉ s.erase a := by
  simp

theorem card_insert_le (ids : IdSet) (a : Nat) : (ids.insert a).card ≤ ids.card + 1 := by
  by_cases ha : a ∈ ids
  · rw [insert_of_mem ha]
    exact Nat.le_succ _
  · exact Nat.le_of_eq (toList_insert_perm ha).length_eq

theorem card_ofList_le (l : List Nat) : (ofList l).card ≤ l.length := by
  induction l with
  | nil => exact Nat.le_refl 0
  | cons a l ih => exact Nat.le_trans (card_insert_le _ a) (Nat.succ_le_succ ih)

theorem card_erase {ids : IdSet} {a : Nat} (ha : a ∈ ids) :
    (ids.erase a).card + 1 = ids.card := by
  have hperm := toList_insert_perm (s := ids.erase a) not_mem_erase
  rw [insert_erase ha] at hperm
  exact hperm.length_eq.symm

end IdSet

namespace Instance

variable {inst : Instance}

/-! ## Sums -/

theorem weight_perm {l r : List Nat} (h : l.Perm r) : inst.weight l = inst.weight r :=
  (h.map inst.costAt).sum_nat

theorem weight_insert {s : IdSet} {a : Nat} (h : a ∉ s) :
    inst.weight (s.insert a).toList = inst.weight s.toList + inst.costAt a := by
  rw [weight_perm (IdSet.toList_insert_perm h), weight, List.map_cons, List.sum_cons, weight]
  exact Nat.add_comm ..

theorem weight_erase {s : IdSet} {a : Nat} (h : a ∈ s) :
    inst.weight (s.erase a).toList + inst.costAt a = inst.weight s.toList := by
  rw [← weight_insert IdSet.not_mem_erase, IdSet.insert_erase h]

/-- The cost of all subsets together. -/
def totalCost (inst : Instance) : Nat := inst.weight (List.range inst.subsetCount)

theorem weight_le_of_sublist {l r : List Nat} (h : l.Sublist r) :
    inst.weight l ≤ inst.weight r := by
  induction h with
  | slnil => exact Nat.le_refl _
  | cons a _ ih =>
      simp only [weight, List.map_cons, List.sum_cons] at ih ⊢
      omega
  | cons_cons a _ ih =>
      simp only [weight, List.map_cons, List.sum_cons] at ih ⊢
      omega

/-- A set of ids weighs no more than a list that has all of them. -/
theorem weight_le_of_forall_mem {s : IdSet} {l : List Nat} (h : ∀ id ∈ s, id ∈ l) :
    inst.weight s.toList ≤ inst.weight l := by
  obtain ⟨l', hperm, hsub⟩ := List.subperm_of_subset s.nodup h
  rw [← weight_perm hperm]
  exact weight_le_of_sublist hsub

/-- A set of known ids costs no more than all subsets together. -/
theorem weight_le_totalCost {s : IdSet} (h : ∀ id ∈ s, id < inst.subsetCount) :
    inst.weight s.toList ≤ inst.totalCost :=
  weight_le_of_forall_mem fun id hid => List.mem_range.mpr (h id hid)

theorem costAt_le_totalCost {s : Nat} (h : s < inst.subsetCount) :
    inst.costAt s ≤ inst.totalCost := by
  have hsub : [s].Sublist (List.range inst.subsetCount) :=
    List.singleton_sublist.mpr (List.mem_range.mpr h)
  calc inst.costAt s = inst.weight [s] := by simp [weight]
    _ ≤ inst.totalCost := weight_le_of_sublist hsub

theorem costAt_lt {bound : Nat} (h : inst.totalCost < bound) :
    ∀ id < inst.subsetCount, inst.costAt id < bound :=
  fun _ hid => Nat.lt_of_le_of_lt (costAt_le_totalCost hid) h

/-! ## Selections of known ids -/

theorem knows_iff {ids : List Nat} :
    inst.knows ids = true ↔ ∀ id ∈ ids, id < inst.subsetCount := by
  simp [knows]

end Instance

namespace Selection

variable {inst : Instance}

theorem of_eq_ok {ids : IdSet} (h : ∀ id ∈ ids, id < inst.subsetCount) :
    Selection.of inst ids = .ok ⟨inst.weight ids.toList, ids.card, ids⟩ := by
  rw [Selection.of, Instance.weightOf, if_pos (Instance.knows_iff.mpr h)]
  rfl

theorem of_spec {ids : IdSet} {s : Selection} (h : Selection.of inst ids = .ok s) :
    s.Consistent inst ∧ s.ids = ids := by
  rw [Selection.of, Instance.weightOf] at h
  split at h
  · next hknown =>
      cases h
      exact ⟨⟨rfl, rfl, Instance.knows_iff.mp hknown⟩, rfl⟩
  · cases h

end Selection

end SetCover
