import SetCover.Heuristic.Call
import SetCover.Proofs.Heuristic.Replay

/-!
# Runs that the clock does not cut short

The clock is looked at after every round, but a look matters only where another round would follow:
the limit of rounds is not reached and the state is live. If no look of that kind finds the budget
spent, a run does what it does when no time passes, word for word. Annealing is live as long as its
temperatures are above zero, and they do not depend on the words drawn.

* `Clock.Suffices`, `Call.Unhurried`: no look that matters finds the budget spent.
* `Anytime.run_of_suffices`: rounds against such a clock.
* `Call.run_of_unhurried`: calls against such a clock.
-/

namespace SetCover

open Search

/-- There is no time at all, or the time lasts at every look after which a round would follow.
`goesOn n` says that there may be a round `n`. -/
def Clock.Suffices (clock : Clock) (budget rounds : Nat) (goesOn : Nat → Prop) : Prop :=
  budget = 0 ∨ ∀ n, n + 1 < rounds → goesOn (n + 1) → clock n < budget * 1000000

/-- The temperature before each round of annealing. -/
def Annealing.temperatureAt (start : Float) (cooling : Float → Nat → Float) : Nat → Float
  | 0 => start
  | n + 1 => cooling start (stepCount (n + 1))

/-- The clock does not cut the call short. -/
def Call.Unhurried (settings : Settings) (clock : Clock) : Call → Prop
  | cheapestFirst => True
  | multistart _ _ _ => True
  | annealing budget start _ cooling =>
      clock.Suffices budget (settings.rounds.getD roundLimit) fun n =>
        ∀ i ≤ n, 0.0 < Annealing.temperatureAt start cooling i
  | neighbourhoods budget => clock.Suffices budget (settings.rounds.getD roundLimit) fun _ => True
  | genetic budget _ => clock.Suffices budget (settings.rounds.getD roundLimit) fun _ => True

variable {State : Type} {h : Anytime State} {clock : Clock} {σ : Session} {s : State}

/-! ## Rounds -/

namespace Anytime

theorem runFrom_of_lt {I : Nat → State → Prop} {limit budget : Nat}
    (hround : ∀ n s σ, I n s → h.live s = true →
      Ends (h.round n s) anyFault (fun s' _ => I (n + 1) s') σ)
    (hlt : ∀ n s, n + 1 < limit → I (n + 1) s → h.live s = true → clock n < budget * 1000000)
    (hpos : 0 < budget) {left done : Nat} (hlimit : done + left = limit) (hs : I done s) :
    (h.runFrom clock left done ⟨budget, false⟩ s).run σ =
      (h.runFrom (fun _ => 0) left done ⟨budget, false⟩ s).run σ := by
  induction left generalizing done s σ with
  | zero => rfl
  | succ left ih =>
      rw [runFrom, runFrom]
      split
      · rfl
      · next hgoes =>
          have hlive : h.live s = true := by simpa using hgoes
          apply run_bind_congr (hround done s σ hs hlive)
          intro s' σ' hs'
          cases hnext : h.live s' with
          | false =>
              have hover : ∀ timer : Timer, (timer.stopped || !h.live s') = true := by
                intro timer
                rw [hnext, Bool.not_false, Bool.or_true]
              rw [runFrom_of_over (hover _), runFrom_of_over (hover _)]
          | true =>
              cases left with
              | zero => rw [runFrom, runFrom]
              | succ left =>
                  have hclock : (⟨budget, false⟩ : Timer).tick (clock done) = ⟨budget, false⟩ :=
                    Timer.tick_of_lt (hlt done s' (by omega) hs' hnext)
                  have hzero : (⟨budget, false⟩ : Timer).tick 0 = ⟨budget, false⟩ :=
                    Timer.tick_of_lt (Nat.mul_pos hpos (Nat.succ_pos _))
                  rw [hclock, hzero]
                  exact ih (by omega) hs'

/-- Rounds against a clock that does not cut them short. -/
theorem run_of_suffices {I : Nat → State → Prop} {goesOn : Nat → Prop} {budget : Nat}
    {rounds : Option Nat} (hsuffices : clock.Suffices budget (rounds.getD roundLimit) goesOn)
    (hround : ∀ n s σ, I n s → h.live s = true →
      Ends (h.round n s) anyFault (fun s' _ => I (n + 1) s') σ)
    (hgoes : ∀ n s, I n s → h.live s = true → goesOn n) (hs : I 0 s) :
    (h.run clock budget rounds s).run σ = (h.run (fun _ => 0) budget rounds s).run σ := by
  by_cases hzero : budget = 0
  · rw [run_of_over (Or.inl hzero), run_of_over (Or.inl hzero)]
  · have hlt := hsuffices.resolve_left hzero
    have htimer : Timer.start budget = ⟨budget, false⟩ := by
      unfold Timer.start
      rw [beq_eq_false_iff_ne.mpr hzero]
    unfold run
    rw [htimer]
    apply runFrom_of_lt hround _ (Nat.pos_of_ne_zero hzero) (Nat.zero_add _) hs
    intro n s hn hs hlive
    exact hlt n hn (hgoes (n + 1) s hs hlive)

end Anytime

/-! ## Calls -/

theorem Job.run_of_rounds {job : Job} {I : job.State → Prop}
    (hstart : Ends job.start anyFault (fun s _ => I s) σ)
    (hrounds : ∀ s σ, I s → (job.rounds.run clock job.budget job.limit s).run σ =
      (job.rounds.run (fun _ => 0) job.budget job.limit s).run σ) :
    (job.run clock).run σ = (job.run fun _ => 0).run σ := by
  apply run_bind_congr hstart
  intro s σ' hs
  cases hrun : (job.rounds.run clock job.budget job.limit s).run σ' with
  | ok s' σ'' =>
      rw [run_bind_ok hrun, run_bind_ok ((hrounds s σ' hs).symm.trans hrun)]
  | error fault σ'' =>
      rw [run_bind_error hrun, run_bind_error ((hrounds s σ' hs).symm.trans hrun)]

theorem Annealing.ends_round_temperature {inst : Instance} {attempts : Nat} {start : Float}
    {count : Nat} {cooling : Float → Nat → Float} {step : Nat} {s : Annealing.State} :
    Ends (round inst attempts start count cooling step s) anyFault
      (fun s' _ => s'.temperature = temperatureAt start cooling (step + 1)) σ := by
  unfold round
  apply ends_bind (ends_any _)
  intro s' σ' _
  exact ends_note_bind (ends_pure rfl)

/-- A call that the clock does not cut short does what it does when no time passes. -/
theorem Call.run_of_unhurried {inst : Instance} {settings : Settings} {call : Call}
    (hunhurried : call.Unhurried settings clock) :
    ((call.job inst settings).run clock).run σ =
      ((call.job inst settings).run fun _ => 0).run σ := by
  cases call with
  | cheapestFirst => rfl
  | multistart count size noise => rfl
  | neighbourhoods budget =>
      have hsuffices : clock.Suffices budget (settings.rounds.getD roundLimit) fun _ => True :=
        hunhurried
      apply Job.run_of_rounds (I := fun _ => True) (ends_any _)
      intro s σ _
      exact Anytime.run_of_suffices (I := fun _ _ => True) hsuffices
        (fun _ _ _ _ _ => ends_any _) (fun _ _ _ _ => trivial) trivial
  | genetic budget p =>
      have hsuffices : clock.Suffices budget (settings.rounds.getD roundLimit) fun _ => True :=
        hunhurried
      apply Job.run_of_rounds (I := fun _ => True) (ends_any _)
      intro s σ _
      exact Anytime.run_of_suffices (I := fun _ _ => True) hsuffices
        (fun _ _ _ _ _ => ends_any _) (fun _ _ _ _ => trivial) trivial
  | annealing budget start moves cooling =>
      have hsuffices : clock.Suffices budget (settings.rounds.getD roundLimit) fun n =>
          ∀ i ≤ n, 0.0 < Annealing.temperatureAt start cooling i := hunhurried
      apply Job.run_of_rounds (I := fun s : Annealing.State => s.temperature = start)
      · apply ends_bind (ends_any _)
        intro _ σ _
        apply ends_bind (ends_any _)
        intro s σ _
        exact ends_pure rfl
      · intro s σ hs
        -- before a round, all temperatures up to its own were those of rounds that took place
        apply Anytime.run_of_suffices (I := fun n (s : Annealing.State) =>
          s.temperature = Annealing.temperatureAt start cooling n ∧
            ∀ i < n, 0.0 < Annealing.temperatureAt start cooling i) hsuffices
        · intro n s σ ⟨htemperature, hbefore⟩ hlive
          have hpos : 0.0 < Annealing.temperatureAt start cooling n := by
            rw [← htemperature]
            exact of_decide_eq_true hlive
          apply Annealing.ends_round_temperature.weaken
          intro s' _ hs'
          refine ⟨hs', ?_⟩
          intro i hi
          rcases Nat.lt_succ_iff_lt_or_eq.mp hi with hlt | rfl
          · exact hbefore i hlt
          · exact hpos
        · intro n s ⟨htemperature, hbefore⟩ hlive i hi
          rcases Nat.lt_or_eq_of_le hi with hlt | rfl
          · exact hbefore i hlt
          · rw [← htemperature]
            exact of_decide_eq_true hlive
        · exact ⟨hs, fun i hi => absurd hi (Nat.not_lt_zero i)⟩

end SetCover
