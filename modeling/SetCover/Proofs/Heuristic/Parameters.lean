import SetCover.Heuristic.Annealing
import SetCover.Heuristic.LeaderGenetic
import SetCover.Proofs.Number.Comparison

/-!
# Parameters that pass

The checks of parameters are written as comparisons that have to succeed, so that they also refuse
what is undefined. Here they are read as lists of what is refused.

* `refuse_eq_ok_iff`: one test of a check, and the tests after it.
* `Annealing.check_eq_ok_iff`, `Annealing.check_error`: the parameters of annealing.
* `LeaderGenetic.check_eq_ok_iff`, `LeaderGenetic.check_error`: the parameters of the genetic
  search, where too many subsets come before everything else.
-/

namespace SetCover

theorem refuse_eq_ok_iff {c : Prop} [Decidable c] {fault : Fault} {rest : Except Fault Unit} :
    (if c then .error fault else rest) = .ok () ↔ ¬ c ∧ rest = .ok () := by
  split
  · next h => simp only [h, not_true_eq_false, false_and, reduceCtorEq]
  · next h => simp only [h, not_false_eq_true, true_and]

namespace Annealing

variable {start : Float} {count : Nat}

/-- The start is refused when it is undefined, infinite or negative. -/
theorem start_refused_iff : (!start.isFinite || decide (start < 0.0)) = true ↔
    start.isNaN = true ∨ start.isInf = true ∨ start < 0.0 := by
  rw [Comparison.isFinite_eq, Bool.or_eq_true, decide_eq_true_eq, ← or_assoc]
  cases start.isNaN <;> cases start.isInf <;> simp only [Bool.not_false, Bool.not_true,
    Bool.and_true, Bool.and_false, Bool.false_eq_true, or_true, true_or, or_self]

theorem check_eq_ok_iff : check start count = .ok () ↔
    ¬ (start.isNaN = true ∨ start.isInf = true ∨ start < 0.0 ∨ count = 0) := by
  rw [check, refuse_eq_ok_iff, refuse_eq_ok_iff, start_refused_iff]
  simp only [not_or, and_assoc, and_true]

theorem check_error {fault : Fault} (h : check start count = .error fault) :
    ∃ why, fault = .invalid why := by
  unfold check at h
  split at h
  · cases h
    exact ⟨_, rfl⟩
  · split at h
    · cases h
      exact ⟨_, rfl⟩
    · cases h

end Annealing

namespace LeaderGenetic

variable {p : Parameters} {subsetCount : Nat}

theorem geneCapacity_eq : geneCapacity = 1024 := rfl

theorem mates_refused_iff :
    (p.mates = 0 ∨ p.poolSize < p.mates) ↔ ¬ (1 ≤ p.mates ∧ p.mates ≤ p.poolSize) := by
  omega

/-- A chance is refused when it is undefined, below zero or above one. -/
theorem copy_refused_iff {copy : Float} : (!(0.0 ≤ copy && copy ≤ 1.0)) = true ↔
    copy.isNaN = true ∨ copy < 0.0 ∨ 1.0 < copy := by
  rw [Bool.not_eq_true', ← Bool.not_eq_true, Bool.and_eq_true, decide_eq_true_eq,
    decide_eq_true_eq, Comparison.le_and_le_iff (by decide) (by decide), Classical.not_not]

theorem check_eq_ok_iff : p.check subsetCount = .ok () ↔
    ¬ (1024 < subsetCount ∨ p.poolSize = 0 ∨ ¬ (1 ≤ p.mates ∧ p.mates ≤ p.poolSize) ∨
      (p.copy.isNaN = true ∨ p.copy < 0.0 ∨ 1.0 < p.copy) ∨ p.sample = 0) := by
  rw [Parameters.check, refuse_eq_ok_iff, refuse_eq_ok_iff, refuse_eq_ok_iff, refuse_eq_ok_iff,
    refuse_eq_ok_iff, geneCapacity_eq, mates_refused_iff, copy_refused_iff]
  simp only [not_or, and_true]

/-- Too many subsets come before everything else. -/
theorem check_error {fault : Fault} (h : p.check subsetCount = .error fault) :
    if 1024 < subsetCount then fault = .tooWide subsetCount 1024
    else ∃ why, fault = .invalid why := by
  unfold Parameters.check at h
  rw [geneCapacity_eq] at h
  split at h
  · next hwidth =>
      cases h
      rw [if_pos hwidth]
  · next hwidth =>
      rw [if_neg hwidth]
      repeat' split at h
      all_goals cases h
      all_goals exact ⟨_, rfl⟩

end LeaderGenetic

end SetCover
