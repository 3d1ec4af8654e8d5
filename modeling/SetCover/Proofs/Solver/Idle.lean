import SetCover.Proofs.Solver.Refusal

/-!
# Runs that change nothing

A heuristic that works in rounds answers with its start, the cheapest-first construction, if there
is no time, if there are no rounds, or if it starts at temperature zero. It does so after any number
of rounds if there are no attempts: a random swap without attempts gives the cover itself, which
costs no more and is taken again and again, and a generation without attempts has no offspring. The
leader of the genetic search is a vector of genes, but no id is lost on the way there and back.

* `Call.Idle`: the calls whose rounds change nothing, if there are any.
* `Solver.answer_idle`: the answer to an idle call.
-/

namespace SetCover

open Search

variable {inst : Instance} {settings : Settings} {greedy : Selection}
  {E : Fault → Session → Prop} {σ : Session}

/-- There is no time, there are no rounds, the temperature is zero, or all attempts are used up. -/
def Call.Idle (settings : Settings) : Call → Prop
  | .cheapestFirst | .multistart _ _ _ => False
  | .annealing budget start _ _ =>
      budget = 0 ∨ settings.rounds = some 0 ∨ (start == 0.0) = true ∨ settings.swapAttempts = 0
  | .neighbourhoods budget => budget = 0 ∨ settings.rounds = some 0 ∨ settings.swapAttempts = 0
  | .genetic budget _ => budget = 0 ∨ settings.rounds = some 0 ∨ settings.crossoverAttempts = 0

/-! ## Rounds without attempts -/

theorem ends_randomSwap_zero (current : Selection) :
    Ends (randomSwap inst 0 current) E (fun s _ => s = current) σ := by
  unfold randomSwap
  exact ends_ite (fun _ => ends_pure rfl) fun _ => ends_note_bind (ends_pure rfl)

theorem Selection.delta_self (s : Selection) : s.delta s = 0 := Int.sub_self _

/-- The cover itself is the first neighbour, and is taken. -/
theorem ends_descend_zero (round : Nat) (current : Selection) :
    Ends (VariableNeighbourhood.descend inst 0 round current Neighbourhood.all.zipIdx) E
      (fun s _ => s = current) σ := by
  have hhoods : Neighbourhood.all.zipIdx = [(.random, 0), (.sweep, 1), (.best, 2)] := rfl
  rw [hhoods, VariableNeighbourhood.descend]
  refine ends_bind (ends_randomSwap_zero current) ?_
  rintro _ σ rfl
  rw [Selection.delta_self]
  refine ends_ite (fun _ => ?_) fun hpos => absurd (Int.le_refl 0) hpos
  exact ends_note_bind (ends_ite (fun hlt => absurd hlt (Nat.lt_irrefl _)) fun _ => ends_pure rfl)

namespace Annealing

/-- Both the current cover and the best one are `greedy`. -/
def State.Stays (greedy : Selection) (s : State) : Prop := s.current = greedy ∧ s.best = greedy

/-- Without attempts a move takes the current cover again. -/
theorem Moved.stays {s s' : State} {σ' : Session} (h : Moved inst 0 s σ s' σ')
    (hs : s.Stays greedy) : s'.Stays greedy := by
  obtain ⟨hcurrent, hbest⟩ := hs
  cases h with
  | taken hrun hbetter =>
      have hsame := (ends_randomSwap_zero (E := noFault) s.current).of_run hrun
      refine ⟨hsame.trans hcurrent, ?_⟩
      rw [hbetter, hsame, hcurrent, hbest, if_neg (Nat.lt_irrefl _)]
  | refused => exact ⟨hcurrent, hbest⟩

theorem ends_round_zero (start : Float) (count : Nat) (cooling : Float → Nat → Float) (step : Nat)
    {s : State} (hs : s.Stays greedy) :
    Ends (round inst 0 start count cooling step s) E (fun s' _ => s'.Stays greedy) σ := by
  refine ends_round_of_moves ((ends_moves_moved (I := fun _ => True)
    (fun s _ _ => (ends_randomSwap_zero s.current).weaken fun _ _ _ => trivial)
    (fun _ _ _ _ _ _ => trivial) step trivial).weaken ?_)
  intro s' _ hmoved
  exact hmoved.invariant (I := fun s _ => s.Stays greedy) hs
    fun _ _ _ _ hs hmove => hmove.stays hs

end Annealing

namespace LeaderGenetic

theorem ends_offspring_zero (copy : Float) (leader : Member) (mates : List Member) :
    Ends (offspring inst copy 0 leader mates) E (fun o _ => o = none) σ := by
  unfold offspring
  exact ends_ite (fun _ => ends_pure rfl) fun _ => ends_note_bind (ends_pure rfl)

theorem ends_generation_zero (p : Parameters) (i : Nat) (s : State) :
    Ends (generation inst 0 p i s) anyFault (fun s' _ => s' = s) σ := by
  unfold generation
  refine ends_bind (ends_any _) fun mates σ _ => ?_
  refine ends_bind (ends_offspring_zero p.copy s.leader mates) ?_
  rintro _ σ rfl
  exact ends_pure rfl

end LeaderGenetic

/-! ## Whole runs -/

section Runs

variable (hfirst : ∀ σ, Ends (cheapestFirst inst) anyFault (fun s _ => s = greedy) σ)
include hfirst

theorem ends_variableNeighbourhood_idle {budget : Nat}
    (hidle : budget = 0 ∨ settings.rounds = some 0 ∨ settings.swapAttempts = 0) (clock : Clock) :
    Ends ((variableNeighbourhood inst settings budget).run clock) anyFault
      (fun s _ => s = greedy) σ := by
  have hanswer : ∀ (s : Selection) (σ : Session), s = greedy →
      Ends (pure s : Search Selection) anyFault (fun s _ => s = greedy) σ :=
    fun _ _ hs => ends_pure hs
  rcases hidle with hover | hover | hattempts
  · exact ends_job_of_over (Or.inl hover) (hfirst σ) hanswer clock
  · exact ends_job_of_over (Or.inr (Or.inl hover)) (hfirst σ) hanswer clock
  · refine ends_job (I := fun s : Selection => s = greedy) (hfirst σ) ?_ hanswer clock
    rintro n _ σ rfl
    dsimp only [variableNeighbourhood]
    rw [hattempts]
    exact ends_descend_zero n _

/-- A run starts from the cheapest-first construction, at the temperature given. -/
theorem Annealing.ends_start_idle (settings : Settings) (budget : Nat) (start : Float)
    (count : Nat) (cooling : Float → Nat → Float) (σ : Session) :
    Ends (annealing inst settings budget start count cooling).start anyFault
      (fun s _ => s.Stays greedy ∧ s.temperature = start) σ := by
  refine ends_bind (ends_any _) fun _ σ _ => ends_bind (hfirst σ) ?_
  rintro _ σ rfl
  exact ends_pure ⟨⟨rfl, rfl⟩, rfl⟩

theorem ends_annealing_idle {budget : Nat} {start : Float} (count : Nat)
    (cooling : Float → Nat → Float)
    (hidle : budget = 0 ∨ settings.rounds = some 0 ∨ (start == 0.0) = true ∨
      settings.swapAttempts = 0) (clock : Clock) :
    Ends ((annealing inst settings budget start count cooling).run clock) anyFault
      (fun s _ => s = greedy) σ := by
  have hstart := Annealing.ends_start_idle hfirst settings budget start count cooling σ
  have hdead : (start == 0.0) = true → ∀ s : Annealing.State,
      s.Stays greedy ∧ s.temperature = start → decide (0.0 < s.temperature) = false := by
    rintro hzero s ⟨_, rfl⟩
    exact decide_eq_false (Comparison.not_lt_of_beq hzero)
  rcases hidle with hover | hover | hzero | hattempts
  · exact ends_job_of_over (Or.inl hover) hstart (fun _ _ hs => ends_pure hs.1.2) clock
  · exact ends_job_of_over (Or.inr (Or.inl hover)) hstart (fun _ _ hs => ends_pure hs.1.2) clock
  · exact ends_job_of_over (Or.inr (Or.inr (hdead hzero))) hstart
      (fun _ _ hs => ends_pure hs.1.2) clock
  · refine ends_job (I := Annealing.State.Stays greedy) (hstart.weaken fun _ _ h => h.1) ?_
      (fun _ _ hs => ends_pure hs.2) clock
    intro n s σ hs
    dsimp only [annealing]
    rw [hattempts]
    exact Annealing.ends_round_zero start count cooling n hs

theorem LeaderGenetic.ends_start_idle (settings : Settings) (budget : Nat)
    (p : LeaderGenetic.Parameters) (σ : Session) :
    Ends (leaderGenetic inst settings budget p).start anyFault
      (fun s _ => Member.ofSelection inst greedy = .ok s.leader) σ := by
  refine ends_bind (ends_any _) fun _ σ _ => ends_bind (hfirst σ) ?_
  rintro first σ rfl
  refine ends_bind (ends_ofExcept (Q := fun m _ => Member.ofSelection inst first = .ok m)
    (fun _ h => h) fun _ _ => trivial) fun leader σ hleader => ?_
  exact ends_bind (ends_any _) fun pool σ _ => ends_pure hleader

theorem ends_leaderGenetic_idle (hgreedy : greedy.Consistent inst) {budget : Nat}
    (p : LeaderGenetic.Parameters)
    (hidle : budget = 0 ∨ settings.rounds = some 0 ∨ settings.crossoverAttempts = 0)
    (clock : Clock) :
    Ends ((leaderGenetic inst settings budget p).run clock) anyFault (fun s _ => s = greedy) σ := by
  have hstart := LeaderGenetic.ends_start_idle hfirst settings budget p σ
  have hanswer : ∀ (s : LeaderGenetic.State) (σ : Session),
      Member.ofSelection inst greedy = .ok s.leader →
      Ends ((leaderGenetic inst settings budget p).answer s) anyFault
        (fun s _ => s = greedy) σ := fun s σ hs =>
    ends_of_run (LeaderGenetic.run_answer (Member.toSelection_of_consistent hgreedy hs)) rfl
  rcases hidle with hover | hover | hattempts
  · exact ends_job_of_over (Or.inl hover) hstart hanswer clock
  · exact ends_job_of_over (Or.inr (Or.inl hover)) hstart hanswer clock
  · refine ends_job (I := fun s : LeaderGenetic.State =>
      Member.ofSelection inst greedy = .ok s.leader) hstart ?_ hanswer clock
    intro n s σ hs
    dsimp only [leaderGenetic]
    rw [hattempts]
    refine (LeaderGenetic.ends_generation_zero p n s).weaken ?_
    rintro _ _ rfl
    exact hs

end Runs

/-- Whatever is answered to an idle call is the cheapest-first construction. -/
theorem Call.ends_job_idle {call : Call} (hidle : call.Idle settings)
    (hfirst : ∀ σ, Ends (SetCover.cheapestFirst inst) anyFault (fun s _ => s = greedy) σ)
    (hgreedy : greedy.Consistent inst) (clock : Clock) :
    Ends ((call.job inst settings).run clock) anyFault (fun s _ => s = greedy) σ := by
  cases call with
  | cheapestFirst => exact hidle.elim
  | multistart count size noise => exact hidle.elim
  | annealing budget start moves cooling =>
      exact ends_annealing_idle hfirst moves cooling hidle clock
  | neighbourhoods budget => exact ends_variableNeighbourhood_idle hfirst hidle clock
  | genetic budget p => exact ends_leaderGenetic_idle hfirst hgreedy p hidle clock

namespace Solver

/-- **Idle calls.** On an instance with subsets there is one selection that every solver gives when
it is asked for the cheapest-first construction, whatever its settings are and whatever it was asked
before. An idle call that is not refused has this selection for its answer, and there is no other
answer to an idle call. -/
theorem answer_idle (solver : Solver) (hpos : 1 ≤ solver.inst.subsetCount)
    (hcost : solver.inst.totalCost < 2 ^ 63 - 1) (call : Call)
    (hidle : call.Idle solver.settings) (clock : Clock) :
    ∃ greedy, (∀ other : Solver, other.inst = solver.inst → ∀ clock,
        (other.answer .cheapestFirst clock).1 = .ok greedy) ∧
      (call.Fits solver.inst → ¬ call.Refused solver.inst →
        (solver.answer call clock).1 = .ok greedy) ∧
      ∀ s, (solver.answer call clock).1 = .ok s → s = greedy := by
  obtain ⟨greedy, hgreedy, htotal⟩ :=
    cheapestFirst_total solver.coverable hpos (Instance.costAt_lt hcost)
  have honly : ∀ s, (solver.answer call clock).1 = .ok s → s = greedy := by
    intro s hs
    obtain ⟨_, hrun⟩ := exists_run_of_answer hs
    exact (Call.ends_job_idle hidle (htotal anyFault) hgreedy.consistent clock).of_run hrun
  refine ⟨greedy, ?_, fun hfits h => ?_, honly⟩
  · rintro other hinst clock
    rw [← hinst] at htotal
    obtain ⟨_, σ, hrun, rfl⟩ := (htotal noFault other.session).exists_run
    exact answer_eq_ok (job_run_eq hrun rfl rfl)
  · obtain ⟨s, hs⟩ := solver.exists_answer hcost hfits h clock
    rw [hs, honly s hs]

/-- Annealing on two elements from temperature zero. -/
theorem answer_idle_of_zero_temperature :
    ∃ inst solver greedy, Instance.build 2 4 [7, 3, 3, 1] [[0, 1, 2], [0, 1, 3]] = .ok inst ∧
      start inst {} (.ofStream (.ofList [3, 1, 4])) = .ok solver ∧
      1 ≤ solver.inst.subsetCount ∧ solver.inst.totalCost < 2 ^ 63 - 1 ∧
      (Call.annealing 5 0.0 3 fun start _ => start).Idle solver.settings ∧
      (solver.answer .cheapestFirst id).1 = .ok greedy ∧
      (solver.answer (.annealing 5 0.0 3 fun start _ => start) id).1 = .ok greedy := by
  obtain ⟨_, solver, hbuild, hstart, rfl, hcount, hcost⟩ := exists_of_two_elements
  have hpos : 1 ≤ solver.inst.subsetCount := by omega
  have hidle : (Call.annealing 5 0.0 3 fun start _ => start).Idle solver.settings :=
    Or.inr (Or.inr (Or.inl (by decide)))
  have hvalid : ¬ (Call.annealing 5 0.0 3 fun start _ => start).Refused solver.inst :=
    not_or.mpr ⟨by omega, show ¬ ((0.0 : Float).isNaN = true ∨ (0.0 : Float).isInf = true ∨
      (0.0 : Float) < 0.0 ∨ 3 = 0) by decide⟩
  obtain ⟨greedy, hgreedy, hanswer, _⟩ := answer_idle solver hpos hcost _ hidle id
  exact ⟨solver.inst, solver, greedy, hbuild, hstart, hpos, hcost, hidle,
    hgreedy solver rfl id, hanswer trivial hvalid⟩

end Solver

end SetCover
