import Mathlib.Data.Nat.Find
import SetCover.Proofs.Instance.Weight

/-!
# Coverable instances

A choice of subsets that is no cover misses an element, and a first one. An instance is coverable
when all subsets together miss none, and the check of it names the first element that they miss.
What a heuristic is after is a selection that is a cover and tells the truth about itself.

* `Instance.FirstMissed`, `exists_firstMissed_iff`: the first element that a choice misses.
* `requireCoverable_iff`, `requireCoverable_eq_error_iff`: what the check finds out.
* `Covers.mono`, `coveredBy_eq_of_known`: more ids cover more, and unknown ids cover nothing.
* `Selection.IsCover`: a cover with its own cost and size.
* `IsCover.cost_le`: a cover costs no more than all subsets together.
* `delta_law_iff`: costs compare as their signed readings do when these have the same sign.
-/

namespace SetCover

variable {inst : Instance}

namespace Instance

variable {chosen chosen' : Nat → Prop} {e e' : Nat}

/-! ## Elements that are missed -/

/-- The first element that no chosen subset holds. -/
def FirstMissed (inst : Instance) (chosen : Nat → Prop) (e : Nat) : Prop :=
  e < inst.elementCount ∧ ¬ inst.Holds chosen e ∧ ∀ e' < e, inst.Holds chosen e'

theorem FirstMissed.unique (h : inst.FirstMissed chosen e) (h' : inst.FirstMissed chosen e') :
    e = e' := by
  obtain ⟨_, hmissed, hbefore⟩ := h
  obtain ⟨_, hmissed', hbefore'⟩ := h'
  have hle : ¬ e < e' := fun hlt => hmissed (hbefore' e hlt)
  have hge : ¬ e' < e := fun hlt => hmissed' (hbefore e' hlt)
  omega

/-- A choice that is no cover misses a first element. -/
theorem exists_firstMissed_iff : (∃ e, inst.FirstMissed chosen e) ↔ ¬ inst.Covers chosen := by
  constructor
  · intro ⟨e, he, hmissed, _⟩ hcovers
    exact hmissed (hcovers e he)
  · intro h
    have hmissed : ∃ e, e < inst.elementCount ∧ ¬ inst.Holds chosen e := by
      by_contra hnone
      apply h
      intro e he
      by_contra hbare
      exact hnone ⟨e, he, hbare⟩
    classical
    obtain ⟨he, hbare⟩ := Nat.find_spec hmissed
    refine ⟨Nat.find hmissed, he, hbare, ?_⟩
    intro e' hlt
    by_contra hbare'
    exact Nat.find_min hmissed hlt ⟨Nat.lt_trans hlt he, hbare'⟩

/-! ## The check -/

theorem isEmpty_holdersOf_iff :
    (inst.holdersOf e).isEmpty = true ↔ ¬ inst.Holds (fun _ => True) e := by
  rw [IdSet.isEmpty_iff]
  constructor
  · intro hempty ⟨s, hs, _⟩
    rw [hempty] at hs
    exact IdSet.not_mem_empty hs
  · intro hbare
    apply IdSet.ext_mem
    intro s
    exact iff_of_false (fun hs => hbare ⟨s, hs, trivial⟩) IdSet.not_mem_empty

theorem bareElement?_eq_some_iff :
    inst.bareElement? = some e ↔ inst.FirstMissed (fun _ => True) e := by
  have hrow : ∀ e (he : e < inst.holders.size), inst.holders[e] = inst.holdersOf e := by
    intro e he
    rw [holdersOf, rowAt, Array.getElem?_eq_getElem he, Option.getD_some]
  rw [bareElement?, Array.findIdx?_eq_some_iff_getElem]
  constructor
  · rintro ⟨he, hempty, hbefore⟩
    rw [hrow e he, isEmpty_holdersOf_iff] at hempty
    refine ⟨he, hempty, ?_⟩
    intro e' hlt
    have hsome := hbefore e' hlt
    rw [hrow e' (Nat.lt_trans hlt he), isEmpty_holdersOf_iff] at hsome
    exact Classical.not_not.mp hsome
  · rintro ⟨he, hbare, hbefore⟩
    refine ⟨he, ?_, ?_⟩
    · rw [hrow e he, isEmpty_holdersOf_iff]
      exact hbare
    · intro e' hlt
      rw [hrow e' (Nat.lt_trans hlt he), isEmpty_holdersOf_iff]
      exact Classical.not_not.mpr (hbefore e' hlt)

/-- The check fails with the first element that no subset holds. -/
theorem requireCoverable_eq_error_iff {fault : Fault} : inst.requireCoverable = .error fault ↔
    ∃ e, fault = .uncoverable e ∧ inst.FirstMissed (fun _ => True) e := by
  simp only [← bareElement?_eq_some_iff]
  unfold requireCoverable
  cases inst.bareElement? with
  | none => simp
  | some e => simp [eq_comm]

theorem requireCoverable_iff_covers :
    inst.requireCoverable = .ok () ↔ inst.Covers (fun _ => True) := by
  rw [← Classical.not_not (a := inst.Covers _), ← exists_firstMissed_iff]
  simp only [← bareElement?_eq_some_iff]
  unfold requireCoverable
  cases inst.bareElement? with
  | none => simp
  | some e => simp

theorem requireCoverable_iff :
    inst.requireCoverable = .ok () ↔ ∀ e < inst.elementCount, ∃ s, s ∈ inst.holdersOf e := by
  rw [requireCoverable_iff_covers]
  simp only [Covers, Holds, and_true]

/-! ## Choices of more ids -/

theorem Covers.mono (h : inst.Covers chosen)
    (hsub : ∀ s < inst.subsetCount, chosen s → chosen' s) : inst.Covers chosen' := by
  intro e he
  obtain ⟨s, hs, hchosen⟩ := h e he
  exact ⟨s, hs, hsub s (mem_holdersOf_lt hs) hchosen⟩

/-- Choices of the same known ids cover the same. -/
theorem coveredBy_eq_of_known {chosen chosen' : Nat → Bool}
    (h : ∀ s < inst.subsetCount, chosen s = chosen' s) :
    inst.coveredBy chosen = inst.coveredBy chosen' := by
  rw [Bool.eq_iff_iff, coveredBy_iff, coveredBy_iff]
  constructor
  · intro hcovers
    apply hcovers.mono
    intro s hs hchosen
    rwa [← h s hs]
  · intro hcovers
    apply hcovers.mono
    intro s hs hchosen
    rwa [h s hs]

theorem covers_mono {ids ids' : IdSet} (hsub : ∀ id ∈ ids, id ∈ ids')
    (h : inst.covers ids = true) : inst.covers ids' = true := by
  rw [covers_iff] at h ⊢
  apply h.mono
  intro s _ hid
  exact hsub s hid

theorem covers_range_iff :
    inst.covers (.range inst.subsetCount) = true ↔ inst.requireCoverable = .ok () := by
  rw [covers_iff, requireCoverable_iff_covers]
  constructor
  · intro h
    apply h.mono
    intro s _ _
    exact trivial
  · intro h
    apply h.mono
    intro s hs _
    exact IdSet.mem_range.mpr hs

end Instance

/-- A cover of known ids, with its own cost and size. -/
structure Selection.IsCover (inst : Instance) (s : Selection) : Prop where
  consistent : s.Consistent inst
  covers : inst.covers s.ids = true

theorem Selection.IsCover.cost_le {s : Selection} (h : s.IsCover inst) :
    s.cost ≤ inst.totalCost := by
  rw [h.consistent.cost_eq]
  exact Instance.weight_le_totalCost h.consistent.ids_lt

/-! ## Signed readings -/

theorem signed_eq {n : Nat} (h : n < 2 ^ 63) : signed n = n :=
  Int.bmod_eq_of_le (by omega) (by omega)

theorem signed_lt (n : Nat) : signed n < 2 ^ 63 := Int.bmod_lt (by decide)

theorem signed_of_ge {n : Nat} (h : 2 ^ 63 ≤ n) (h' : n < 2 ^ 64) : signed n = n - 2 ^ 64 := by
  unfold signed
  rw [Int.bmod_def]
  omega

/-- The difference says which cost is larger exactly when both are read with the same sign. -/
theorem Selection.delta_law_iff {s t : Selection} (hs : s.cost < 2 ^ 64) (ht : t.cost < 2 ^ 64) :
    (s.delta t ≤ 0 ↔ s.cost ≤ t.cost) ↔ (2 ^ 63 ≤ s.cost ↔ 2 ^ 63 ≤ t.cost) := by
  unfold delta
  by_cases hlarge : 2 ^ 63 ≤ s.cost
  · rw [signed_of_ge hlarge hs]
    by_cases hlarge' : 2 ^ 63 ≤ t.cost
    · rw [signed_of_ge hlarge' ht]
      omega
    · rw [signed_eq (Nat.lt_of_not_le hlarge')]
      omega
  · rw [signed_eq (Nat.lt_of_not_le hlarge)]
    by_cases hlarge' : 2 ^ 63 ≤ t.cost
    · rw [signed_of_ge hlarge' ht]
      omega
    · rw [signed_eq (Nat.lt_of_not_le hlarge')]
      omega

theorem Selection.delta_nonpos_iff {s t : Selection} (hs : s.cost < 2 ^ 63)
    (ht : t.cost < 2 ^ 63) : s.delta t ≤ 0 ↔ s.cost ≤ t.cost :=
  (delta_law_iff (Nat.lt_trans hs (by decide)) (Nat.lt_trans ht (by decide))).mpr
    (iff_of_false (Nat.not_le.mpr hs) (Nat.not_le.mpr ht))

end SetCover
