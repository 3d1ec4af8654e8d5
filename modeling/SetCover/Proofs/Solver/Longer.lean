import SetCover.Proofs.Heuristic.Replay
import SetCover.Proofs.Selection.Earliest
import SetCover.Proofs.Solver.Refusal

/-!
# Longer runs are better

A call with a higher limit of rounds gives an answer that is no more expensive, as long as the time
lasts for both. The state that an answer is read from is what makes the difference: the best cover
of annealing and the leader of the genetic search only change for something cheaper, while the
variable neighbourhood search also moves on among covers of the same cost.

* `Annealing.ends_round_best`: what a round of annealing does to its best cover.
* `Call.Improves`: how two answers compare.
* `Solver.answer_longer`: a higher limit of rounds.
-/

namespace SetCover

open Search

variable {inst : Instance} {settings : Settings} {clock clock₁ clock₂ : Clock} {σ : Session}
  {n₁ n₂ : Nat}

/-! ## What rounds improve -/

namespace Annealing

theorem Moved.best_isOrBeats {s s' : State} {attempts : Nat} {σ' : Session}
    (h : Moved inst attempts s σ s' σ') : s.best.IsOrBeats s'.best := by
  cases h with
  | taken _ hbest =>
      rw [hbest]
      split
      · next hlt => exact Or.inr hlt
      · exact Selection.isOrBeats_refl _
  | refused => exact Selection.isOrBeats_refl _

/-- The best cover stays, or becomes a cheaper one. -/
theorem ends_round_best (attempts : Nat) (start : Float) (count : Nat)
    (cooling : Float → Nat → Float) (step : Nat) (s : State) :
    Ends (round inst attempts start count cooling step s) anyFault
      (fun s' _ => s.best.IsOrBeats s'.best) σ := by
  refine ends_round_of_moves ((ends_moves_moved (I := fun _ => True)
    (fun _ _ _ => ends_any _) (fun _ _ _ _ _ _ => trivial) step trivial).weaken ?_)
  intro s' _ hmoved
  exact hmoved.invariant (I := fun s' _ => s.best.IsOrBeats s'.best)
    (Selection.isOrBeats_refl s.best)
    fun _ _ _ _ h hmove => Selection.isOrBeats_trans _ _ _ h hmove.best_isOrBeats

end Annealing

namespace LeaderGenetic

/-- The leader as a selection. -/
def State.value (inst : Instance) (s : State) : Selection :=
  ⟨inst.weight s.leader.genes.toIds.toList, s.leader.genes.toIds.card, s.leader.genes.toIds⟩

theorem State.Sound.toSelection {s : State} {size : Nat} (h : s.Sound inst size) :
    s.leader.toSelection inst = .ok (s.value inst) :=
  Selection.of_eq_ok h.leader.ids_lt

theorem State.Sound.cost_value {s : State} {size : Nat} (h : s.Sound inst size) :
    (s.value inst).cost = s.leader.cost :=
  h.leader.cost_eq.symm

/-- The leader stays, or a cheaper one takes its place. -/
theorem Advances.value {attempts size : Nat} {p : Parameters} {s s' : State}
    (h : Advances inst attempts p s s') (hs : s.Sound inst size) :
    (s.value inst).IsOrBeats (s'.value inst) := by
  rcases h.leader with hsame | ⟨_, hlt⟩
  · left
    rw [State.value, State.value, hsame]
  · right
    rwa [hs.cost_value, (h.sound hs).cost_value]

end LeaderGenetic

/-! ## Two runs -/

theorem ends_annealing_capped (budget : Nat) (start : Float) (count : Nat)
    (cooling : Float → Nat → Float) (hle : n₁ ≤ n₂) (h₁ : clock₁.Spares budget)
    (h₂ : clock₂.Spares budget) :
    Ends (((annealing inst settings budget start count cooling).capped n₁).run clock₁) anyFault
      (fun s _ => ∃ t σ', (((annealing inst settings budget start count cooling).capped n₂).run
        clock₂).run σ = .ok t σ' ∧ s.IsOrBeats t) σ := by
  refine Job.ends_capped (I := fun s : Annealing.State => s.Covers inst)
    (fun s : Annealing.State => s.best) Selection.isOrBeats_refl
    Selection.isOrBeats_trans ?_ ?_ (fun _ _ _ => rfl) hle h₁ h₂
  · exact Annealing.ends_start settings budget cooling (ends_multistart 1 1 0) fun _ _ => trivial
  · intro n s σ hs
    exact (Annealing.ends_round settings.swapAttempts start count cooling n hs).also
      (Annealing.ends_round_best settings.swapAttempts start count cooling n s)

theorem ends_variableNeighbourhood_capped (hbound : inst.totalCost < 2 ^ 63) (budget : Nat)
    (hle : n₁ ≤ n₂) (h₁ : clock₁.Spares budget) (h₂ : clock₂.Spares budget) :
    Ends (((variableNeighbourhood inst settings budget).capped n₁).run clock₁) anyFault
      (fun s _ => ∃ t σ', (((variableNeighbourhood inst settings budget).capped n₂).run
        clock₂).run σ = .ok t σ' ∧ t.cost ≤ s.cost) σ := by
  have hbest : ∃ p ∈ Neighbourhood.all.zipIdx, p.1 = Neighbourhood.best := ⟨(.best, 2), by decide⟩
  refine Job.ends_capped (I := fun s : Selection => s.IsCover inst)
    (Q := fun s t => t.cost ≤ s.cost) (fun s : Selection => s) (fun _ => Nat.le_refl _)
    (fun _ _ _ h h' => Nat.le_trans h' h) (ends_multistart 1 1 0) ?_ (fun _ _ _ => rfl) hle h₁ h₂
  intro n s σ hs
  refine (ends_descend n hs hbound hbest).weaken ?_
  rintro s' _ ⟨_, _, hdescends, _⟩
  exact ⟨hdescends.isCover hs, hdescends.cost_le⟩

theorem ends_leaderGenetic_capped (budget : Nat) (p : LeaderGenetic.Parameters) (hle : n₁ ≤ n₂)
    (h₁ : clock₁.Spares budget) (h₂ : clock₂.Spares budget) :
    Ends (((leaderGenetic inst settings budget p).capped n₁).run clock₁) anyFault
      (fun s _ => ∃ t σ', (((leaderGenetic inst settings budget p).capped n₂).run
        clock₂).run σ = .ok t σ' ∧ s.IsOrBeats t) σ := by
  refine Job.ends_capped (I := fun s : LeaderGenetic.State => p.check inst.subsetCount = .ok () ∧
      p.poolSize * 144 < 2 ^ 63 ∧ s.Sound inst p.poolSize)
    (fun s : LeaderGenetic.State => s.value inst) Selection.isOrBeats_refl
    Selection.isOrBeats_trans ?_ ?_ ?_ hle h₁ h₂
  · exact LeaderGenetic.ends_start settings budget (ends_multistart 1 1 0) (fun _ _ => trivial)
      fun _ _ => trivial
  · rintro n s σ ⟨hcheck, hshort, hs⟩
    refine (LeaderGenetic.ends_generation_of_check hcheck hshort hs.leader n).weaken ?_
    exact fun s' _ h => ⟨⟨hcheck, hshort, h.sound hs⟩, h.value hs⟩
  · rintro s σ ⟨_, _, hs⟩
    exact LeaderGenetic.run_answer hs.toSelection

/-! ## Calls -/

/-- The time of a call lasts, if it has a budget. -/
def Call.Spared (clock : Clock) : Call → Prop
  | .cheapestFirst | .multistart _ _ _ => True
  | .annealing budget _ _ _ | .neighbourhoods budget | .genetic budget _ => clock.Spares budget

/-- How the answer `t` to a call improves the answer `s`: it costs no more, and where it is another
one it costs less, except that the variable neighbourhood search may give one of the same cost. -/
def Call.Improves (call : Call) (s t : Selection) : Prop :=
  match call with
  | .neighbourhoods _ => t.cost ≤ s.cost
  | _ => s.IsOrBeats t

theorem ends_once_capped (x : Search Selection) :
    Ends ((Job.once x).run clock₁) anyFault
      (fun s _ => ∃ t σ', ((Job.once x).run clock₂).run σ = .ok t σ' ∧ s.IsOrBeats t) σ :=
  ((ends_any ((Job.once x).run clock₁)).with_run).weaken fun s σ' h =>
    ⟨s, σ', h.2, Selection.isOrBeats_refl s⟩

theorem Call.ends_job_capped (hbound : inst.totalCost < 2 ^ 63) (settings : Settings)
    (call : Call) (hle : n₁ ≤ n₂) (h₁ : call.Spared clock₁) (h₂ : call.Spared clock₂) :
    Ends ((call.job inst { settings with rounds := some n₁ }).run clock₁) anyFault
      (fun s _ => ∃ t σ', ((call.job inst { settings with rounds := some n₂ }).run clock₂).run σ =
        .ok t σ' ∧ call.Improves s t) σ := by
  cases call with
  | cheapestFirst => exact ends_once_capped _
  | multistart count size noise => exact ends_once_capped _
  | annealing budget start moves cooling =>
      exact ends_annealing_capped budget start moves cooling hle h₁ h₂
  | neighbourhoods budget => exact ends_variableNeighbourhood_capped hbound budget hle h₁ h₂
  | genetic budget p => exact ends_leaderGenetic_capped budget p hle h₁ h₂

namespace Solver

/-- The solver with another limit of rounds. -/
def capped (solver : Solver) (n : Nat) : Solver :=
  { solver with settings := { solver.settings with rounds := some n } }

/-- **Longer runs are better.** A call that is not refused has an answer, and if it is made again
with a higher limit of rounds, from the same words and settings, it has an answer that improves
the first one, as long as the time lasts for both. -/
theorem answer_longer (solver : Solver) (hcost : solver.inst.totalCost < 2 ^ 63 - 1) (call : Call)
    {n₁ n₂ : Nat} (hle : n₁ ≤ n₂) {clock₁ clock₂ : Clock} (h₁ : call.Spared clock₁)
    (h₂ : call.Spared clock₂) :
    (call.Fits solver.inst → ¬ call.Refused solver.inst →
      ∃ s, ((solver.capped n₁).answer call clock₁).1 = .ok s) ∧
    ∀ s, ((solver.capped n₁).answer call clock₁).1 = .ok s →
      ∃ t, ((solver.capped n₂).answer call clock₂).1 = .ok t ∧ call.Improves s t := by
  have hbound : solver.inst.totalCost < 2 ^ 63 := by omega
  refine ⟨fun hfits h => (solver.capped n₁).exists_answer hcost hfits h clock₁, fun s hs => ?_⟩
  obtain ⟨_, hrun⟩ := exists_run_of_answer hs
  obtain ⟨t, _, hrun', himproves⟩ :=
    (Call.ends_job_capped hbound solver.settings call hle h₁ h₂).of_run hrun
  exact ⟨t, answer_eq_ok hrun', himproves⟩

/-- Two rounds and five rounds of the variable neighbourhood search on two elements. -/
theorem answer_longer_of_two_elements :
    ∃ inst solver s t, Instance.build 2 4 [7, 3, 3, 1] [[0, 1, 2], [0, 1, 3]] = .ok inst ∧
      start inst {} (.ofStream (.ofList [3, 1, 4])) = .ok solver ∧
      solver.inst.totalCost < 2 ^ 63 - 1 ∧ (Call.neighbourhoods 5).Spared (fun _ => 0) ∧
      (Call.neighbourhoods 5).Spared (fun n => min n 1000) ∧
      ((solver.capped 2).answer (.neighbourhoods 5) fun _ => 0).1 = .ok s ∧
      ((solver.capped 5).answer (.neighbourhoods 5) fun n => min n 1000).1 = .ok t ∧
      t.cost ≤ s.cost := by
  obtain ⟨_, solver, hbuild, hstart, rfl, hcount, hcost⟩ := exists_of_two_elements
  have h₁ : (Call.neighbourhoods 5).Spared fun _ => 0 := fun _ => show 0 < 5 * 1000000 by decide
  have h₂ : (Call.neighbourhoods 5).Spared fun n => min n 1000 := fun n =>
    Nat.lt_of_le_of_lt (Nat.min_le_right n 1000) (by decide)
  obtain ⟨hshort, hlong⟩ := answer_longer solver hcost (.neighbourhoods 5) (show 2 ≤ 5 by decide)
    h₁ h₂
  obtain ⟨s, hs⟩ := hshort trivial (not_or.mpr ⟨by omega, id⟩)
  obtain ⟨t, ht, hle⟩ := hlong s hs
  exact ⟨solver.inst, solver, s, t, hbuild, hstart, hcost, h₁, h₂, hs, ht, hle⟩

end Solver

end SetCover
