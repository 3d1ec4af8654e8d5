import SetCover.Selection

/-!
# The earliest of the cheapest

A heuristic that keeps the best selection so far, and replaces it only by a cheaper one, keeps the
first of the cheapest selections that it has seen.

* `Selection.IsEarliestCheapest`: the first of the cheapest selections of a list.
* `IsEarliestCheapest.concat`: how it changes when one more selection is seen.
* `Selection.IsOrBeats`, `IsEarliestCheapest.isOrBeats`: it gives way to a cheaper one only.
-/

namespace SetCover.Selection

/-- The first of the cheapest selections of a list: cheaper than all before it, and no more
expensive than those after it. -/
def IsEarliestCheapest (best : Selection) (seen : List Selection) : Prop :=
  ∃ before after, seen = before ++ best :: after ∧ (∀ s ∈ before, best.cost < s.cost) ∧
    ∀ s ∈ after, best.cost ≤ s.cost

variable {best s : Selection} {seen : List Selection}

theorem isEarliestCheapest_singleton (s : Selection) : s.IsEarliestCheapest [s] :=
  ⟨[], [], rfl, by simp, by simp⟩

theorem IsEarliestCheapest.mem (h : best.IsEarliestCheapest seen) : best ∈ seen := by
  obtain ⟨before, after, rfl, _, _⟩ := h
  simp

theorem IsEarliestCheapest.cost_le (h : best.IsEarliestCheapest seen) (hs : s ∈ seen) :
    best.cost ≤ s.cost := by
  obtain ⟨before, after, rfl, hbefore, hafter⟩ := h
  rcases List.mem_append.mp hs with hs | hs
  · exact Nat.le_of_lt (hbefore s hs)
  · rcases List.mem_cons.mp hs with rfl | hs
    · exact Nat.le_refl _
    · exact hafter s hs

/-- One more selection takes the place of the best one exactly when it is cheaper. -/
theorem IsEarliestCheapest.concat (h : best.IsEarliestCheapest seen) (s : Selection) :
    (if s.cost < best.cost then s else best).IsEarliestCheapest (seen ++ [s]) := by
  split
  · next hlt =>
      refine ⟨seen, [], rfl, fun t ht => ?_, by simp⟩
      exact Nat.lt_of_lt_of_le hlt (h.cost_le ht)
  · next hge =>
      obtain ⟨before, after, rfl, hbefore, hafter⟩ := h
      refine ⟨before, after ++ [s], by simp, hbefore, fun t ht => ?_⟩
      rcases List.mem_append.mp ht with ht | ht
      · exact hafter t ht
      · rw [List.mem_singleton.mp ht]
        exact Nat.le_of_not_lt hge

/-! ## Giving way -/

/-- `t` is `s` itself, or strictly cheaper. -/
def IsOrBeats (s t : Selection) : Prop := t = s ∨ t.cost < s.cost

theorem isOrBeats_refl (s : Selection) : s.IsOrBeats s := Or.inl rfl

theorem isOrBeats_trans (s t u : Selection) (h : s.IsOrBeats t) (h' : t.IsOrBeats u) :
    s.IsOrBeats u := by
  rcases h with rfl | hlt
  · exact h'
  · rcases h' with rfl | hlt'
    · exact Or.inr hlt
    · exact Or.inr (Nat.lt_trans hlt' hlt)

/-- When more selections are seen, the first of the cheapest stays or gives way to a cheaper one. -/
theorem IsEarliestCheapest.isOrBeats {t : Selection} {more : List Selection}
    (h : s.IsEarliestCheapest seen) (h' : t.IsEarliestCheapest (seen ++ more)) :
    s.IsOrBeats t := by
  have hle : t.cost ≤ s.cost := h'.cost_le (List.mem_append_left more h.mem)
  by_cases hlt : t.cost < s.cost
  · exact Or.inr hlt
  · left
    obtain ⟨before, after, rfl, hbefore, _⟩ := h
    obtain ⟨before', after', heq, hbefore', _⟩ := h'
    rw [List.append_assoc, List.cons_append] at heq
    rcases List.append_eq_append_iff.mp heq with ⟨mid, rfl, hrest⟩ | ⟨mid, rfl, hrest⟩
    · cases mid with
      | nil => exact (List.cons.inj hrest).1.symm
      | cons m mid =>
          obtain rfl := (List.cons.inj hrest).1
          exact absurd (hbefore' s (by simp)) hlt
    · cases mid with
      | nil => exact (List.cons.inj hrest).1
      | cons m mid =>
          obtain rfl := (List.cons.inj hrest).1
          exact absurd (hbefore t (by simp)) (Nat.not_lt.mpr hle)

end SetCover.Selection
