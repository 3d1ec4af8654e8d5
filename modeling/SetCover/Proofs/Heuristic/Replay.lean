import SetCover.Proofs.Heuristic.Trace

/-!
# Runs with more rounds

While the time lasts the clock does not matter. So a run with more rounds starts out as the run
with fewer rounds, round for round and word for word, and goes on from where that one ends. The two
answers differ only by what the rounds do that come after.

* `Clock.Spares`: the time lasts.
* `Anytime.runFrom_add`, `Anytime.run_of_le`: what the longer run does.
* `Job.ends_capped`: the answer of the longer run, from that of the shorter one.
-/

namespace SetCover

open Search

/-- No look at the clock finds the budget spent, so it is none of nothing. -/
def Clock.Spares (clock : Clock) (budget : Nat) : Prop := ∀ n, clock n < budget * 1000000

variable {State : Type} {h : Anytime State} {clock clock₁ clock₂ : Clock} {σ : Session}

/-! ## Rounds -/

theorem Timer.tick_of_lt {timer : Timer} {elapsed : Nat}
    (hlt : elapsed < timer.budget * 1000000) : timer.tick elapsed = timer := by
  unfold tick
  rw [decide_eq_false (Nat.not_le.mpr hlt), Bool.or_false]

theorem Timer.tick_eq_self {timer : Timer} (hspares : clock.Spares timer.budget) (n : Nat) :
    timer.tick (clock n) = timer :=
  tick_of_lt (hspares n)

namespace Anytime

/-- A run goes on from where its first rounds end, which may have had a clock of their own. -/
theorem runFrom_add (h : Anytime State) {timer : Timer} (h₁ : clock₁.Spares timer.budget)
    (h₂ : clock₂.Spares timer.budget) (first rest done : Nat) (s : State) :
    h.runFrom clock₂ (first + rest) done timer s =
      h.runFrom clock₁ first done timer s >>= h.runFrom clock₂ rest (done + first) timer := by
  induction first generalizing done s with
  | zero => rw [Nat.zero_add, runFrom, pure_bind, Nat.add_zero]
  | succ first ih =>
      rw [Nat.add_right_comm, runFrom, runFrom]
      split
      · next hover => rw [pure_bind, runFrom_of_over hover]
      · simp only [bind_assoc, Timer.tick_eq_self h₁, Timer.tick_eq_self h₂, ih]
        rw [Nat.add_assoc done 1 first, Nat.add_comm 1 first]

theorem run_of_le {budget n₁ n₂ : Nat} (hle : n₁ ≤ n₂) (h₁ : clock₁.Spares budget)
    (h₂ : clock₂.Spares budget) (s : State) :
    h.run clock₂ budget (some n₂) s = h.run clock₁ budget (some n₁) s >>=
      h.runFrom clock₂ (n₂ - n₁) n₁ (Timer.start budget) := by
  have hadd := h.runFrom_add (show clock₁.Spares (Timer.start budget).budget from h₁) h₂ n₁
    (n₂ - n₁) 0 s
  rwa [Nat.add_sub_cancel' hle, Nat.zero_add] at hadd

end Anytime

/-! ## Jobs -/

/-- The job with another limit of rounds. -/
def Job.capped (job : Job) (n : Nat) : Job := { job with limit := some n }

/-- If no round fails, and every round improves the value of the state, then a longer run improves
the answer of a shorter one. -/
theorem Job.ends_capped {job : Job} {I : job.State → Prop} (value : job.State → Selection)
    {Q : Selection → Selection → Prop} (hrefl : ∀ s, Q s s)
    (htrans : ∀ s t u, Q s t → Q t u → Q s u)
    (hstart : Ends job.start anyFault (fun s _ => I s) σ)
    (hround : ∀ n s σ, I s →
      Ends (job.rounds.round n s) noFault (fun s' _ => I s' ∧ Q (value s) (value s')) σ)
    (hanswer : ∀ s σ, I s → (job.answer s).run σ = .ok (value s) σ)
    {n₁ n₂ : Nat} (hle : n₁ ≤ n₂) (h₁ : clock₁.Spares job.budget)
    (h₂ : clock₂.Spares job.budget) :
    Ends ((job.capped n₁).run clock₁) anyFault
      (fun s _ => ∃ t σ', ((job.capped n₂).run clock₂).run σ = .ok t σ' ∧ Q s t) σ := by
  refine ends_bind hstart.with_run ?_
  rintro (s₀ : job.State) σ₀ ⟨hs₀, hrun₀⟩
  have hkeep : ∀ n s σ, I s → Ends (job.rounds.round n s) anyFault (fun s' _ => I s') σ :=
    fun n s σ hs => (hround n s σ hs).mono (fun _ _ _ => trivial) fun _ _ h => h.1
  refine ends_bind (ends_runFrom (I := fun s _ => I s) hkeep clock₁ _ _ _ hs₀).with_run ?_
  rintro (s₁ : job.State) σ₁ ⟨hs₁, hrun₁⟩
  have hrun₁ : (job.rounds.run clock₁ job.budget (some n₁) s₀).run σ₀ = .ok s₁ σ₁ := hrun₁
  -- from here on the shorter run is over, and the longer one improves on its last state
  have hrest : Ends (job.rounds.runFrom clock₂ (n₂ - n₁) n₁ (Timer.start job.budget) s₁) noFault
      (fun s _ => I s ∧ Q (value s₁) (value s)) σ₁ := by
    refine ends_runFrom (I := fun s _ => I s ∧ Q (value s₁) (value s)) ?_ clock₂ _ _ _
      ⟨hs₁, hrefl _⟩
    rintro n s σ ⟨hs, hQ⟩
    exact (hround n s σ hs).weaken fun s' _ h => ⟨h.1, htrans _ _ _ hQ h.2⟩
  obtain ⟨s₂, σ₂, hrun₂, hs₂, hQ⟩ := hrest.exists_run
  have hrounds : (job.rounds.run clock₂ job.budget (some n₂) s₀).run σ₀ = .ok s₂ σ₂ := by
    rw [Anytime.run_of_le hle h₁ h₂, run_bind_ok hrun₁, hrun₂]
  have hrun : ((job.capped n₂).run clock₂).run σ = .ok (value s₂) σ₂ :=
    job_run_eq hrun₀ hrounds (hanswer s₂ σ₂ hs₂)
  exact ends_of_run (hanswer s₁ σ₁ hs₁) ⟨value s₂, σ₂, hrun, hQ⟩

end SetCover
