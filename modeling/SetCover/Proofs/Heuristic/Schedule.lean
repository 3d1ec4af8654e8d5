import SetCover.Proofs.Heuristic.Replay

/-!
# Rounds by number

For some heuristics it only depends on the number of rounds done whether another one makes sense.
While the time lasts such a run begins the rounds up to the first that makes no sense, whatever
happens within them.

* `Anytime.Scheduled`: rounds that never fail, and make sense or not by their number.
* `Anytime.Scheduled.begins_iff`: the rounds that a run begins.
* `Anytime.Scheduled.ends_runFrom`: where a run ends.
* `Anytime.Scheduled.exists_begins_iff`, `Anytime.Scheduled.exists_run`: the same for jobs.
-/

namespace SetCover

open Search

variable {State : Type} {h : Anytime State} {clock : Clock} {I : Nat → State → Session → Prop}
  {goesOn : Nat → Prop} {left done n : Nat} {timer : Timer} {s s' : State} {σ σ' : Session}

namespace Anytime

/-- What holds before a round holds before the next one, no round fails, and by what holds before it
a round makes sense or not by its number. -/
structure Scheduled (h : Anytime State) (I : Nat → State → Session → Prop)
    (goesOn : Nat → Prop) : Prop where
  round : ∀ n s σ, I n s σ → Ends (h.round n s) noFault (I (n + 1)) σ
  live : ∀ n s σ, I n s σ → (h.live s = true ↔ goesOn n)

namespace Scheduled

/-- What holds before every round that is begun. -/
theorem before_begins (hscheduled : h.Scheduled I goesOn)
    (hbegins : h.Begins clock left done timer s σ n s' σ') (hs : I done s σ) : I n s' σ' := by
  induction hbegins with
  | now => exact hs
  | later _ _ hrun _ ih => exact ih ((hscheduled.round _ _ _ hs).of_run hrun)

/-- A round that is begun comes before the limit, and makes sense like all rounds before it. -/
theorem goesOn_of_begins (hscheduled : h.Scheduled I goesOn)
    (hbegins : h.Begins clock left done timer s σ n s' σ') (hs : I done s σ) :
    done ≤ n ∧ n < done + left ∧ ∀ i, done ≤ i → i ≤ n → goesOn i := by
  induction hbegins with
  | now _ hlive =>
      refine ⟨Nat.le_refl _, by omega, fun i hle hge => ?_⟩
      rw [← Nat.le_antisymm hle hge]
      exact (hscheduled.live _ _ _ hs).mp hlive
  | later _ hlive hrun _ ih =>
      obtain ⟨hle, hlt, hgoes⟩ := ih ((hscheduled.round _ _ _ hs).of_run hrun)
      refine ⟨by omega, by omega, fun i hi hn => ?_⟩
      rcases Nat.eq_or_lt_of_le hi with rfl | hi
      · exact (hscheduled.live _ _ _ hs).mp hlive
      · exact hgoes i hi hn

theorem exists_begins (hscheduled : h.Scheduled I goesOn) (hspares : clock.Spares timer.budget)
    (hstopped : timer.stopped = false) (hs : I done s σ) (hle : done ≤ n) (hlt : n < done + left)
    (hgoes : ∀ i, done ≤ i → i ≤ n → goesOn i) :
    ∃ s' σ', h.Begins clock left done timer s σ n s' σ' := by
  induction left generalizing done s σ with
  | zero => omega
  | succ left ih =>
      have hlive : h.live s = true :=
        (hscheduled.live _ _ _ hs).mpr (hgoes done (Nat.le_refl _) hle)
      rcases Nat.eq_or_lt_of_le hle with rfl | hlater
      · exact ⟨s, σ, .now hstopped hlive⟩
      · obtain ⟨s₁, σ₁, hrun, hs₁⟩ := (hscheduled.round _ _ _ hs).exists_run
        obtain ⟨s', σ', hbegins⟩ := ih hs₁ hlater (by omega) fun i hi => hgoes i (by omega)
        refine ⟨s', σ', .later hstopped hlive hrun ?_⟩
        rwa [Timer.tick_eq_self hspares]

/-- The rounds that a run begins while the time lasts. -/
theorem begins_iff (hscheduled : h.Scheduled I goesOn) (hspares : clock.Spares timer.budget)
    (hstopped : timer.stopped = false) (hs : I done s σ) :
    (∃ s' σ', h.Begins clock left done timer s σ n s' σ') ↔
      done ≤ n ∧ n < done + left ∧ ∀ i, done ≤ i → i ≤ n → goesOn i := by
  constructor
  · rintro ⟨s', σ', hbegins⟩
    exact hscheduled.goesOn_of_begins hbegins hs
  · rintro ⟨hle, hlt, hgoes⟩
    exact hscheduled.exists_begins hspares hstopped hs hle hlt hgoes

/-- While the time lasts a run ends before the first round that makes no sense or reaches the
limit. -/
theorem ends_runFrom {steps : Nat} (hscheduled : h.Scheduled I goesOn)
    (hspares : clock.Spares timer.budget) (hstopped : timer.stopped = false) (hs : I done s σ)
    (hle : done ≤ steps) (hlimit : steps ≤ done + left) (hgoes : ∀ i < steps, goesOn i)
    (hend : steps = done + left ∨ ¬ goesOn steps) :
    Ends (h.runFrom clock left done timer s) noFault (I steps) σ := by
  induction left generalizing done s σ with
  | zero =>
      obtain rfl : done = steps := by omega
      exact ends_pure hs
  | succ left ih =>
      rcases Nat.eq_or_lt_of_le hle with rfl | hlater
      · have hcold : ¬ h.live s = true := fun hlive =>
          hend.elim (by omega) fun hend => hend ((hscheduled.live _ _ _ hs).mp hlive)
        have hover : (timer.stopped || !h.live s) = true := by simp [hcold]
        rw [runFrom_of_over hover]
        exact ends_pure hs
      · have hlive : h.live s = true := (hscheduled.live _ _ _ hs).mpr (hgoes done hlater)
        rw [runFrom_of_live hstopped hlive, Timer.tick_eq_self hspares]
        refine ends_bind (hscheduled.round _ _ _ hs) fun s₁ σ₁ hs₁ => ?_
        exact ih hs₁ hlater (by omega) (hend.imp_left (by omega))

end Scheduled

end Anytime

/-! ## Jobs -/

theorem Clock.Spares.start {budget : Nat} (h : clock.Spares budget) :
    (Timer.start budget).stopped = false := by
  have hpos : budget ≠ 0 := by
    rintro rfl
    exact absurd (h 0) (Nat.not_lt_zero _)
  simpa [Timer.start] using hpos

variable {job : Job} {J : Nat → job.State → Session → Prop} {first : job.State} {σ₀ : Session}

/-- A job begins its rounds after its start. -/
theorem Job.begins_iff_of_start (hstart : job.start.run σ = .ok first σ₀) {s : job.State} :
    job.Begins clock σ n s σ' ↔ job.rounds.Begins clock (job.limit.getD roundLimit) 0
      (Timer.start job.budget) first σ₀ n s σ' := by
  constructor
  · rintro ⟨s₀, σ₁, hrun, hbegins⟩
    rw [hstart] at hrun
    cases hrun
    exact hbegins
  · intro hbegins
    exact ⟨first, σ₀, hstart, hbegins⟩

namespace Anytime.Scheduled

theorem before_round (hscheduled : job.rounds.Scheduled J goesOn)
    (hstart : job.start.run σ = .ok first σ₀) (hfirst : J 0 first σ₀) {s : job.State}
    (hbegins : job.Begins clock σ n s σ') : J n s σ' :=
  hscheduled.before_begins ((Job.begins_iff_of_start hstart).mp hbegins) hfirst

/-- The rounds that a job begins while the time lasts. -/
theorem exists_begins_iff (hscheduled : job.rounds.Scheduled J goesOn)
    (hspares : clock.Spares job.budget) (hstart : job.start.run σ = .ok first σ₀)
    (hfirst : J 0 first σ₀) :
    (∃ s σ', job.Begins clock σ n s σ') ↔
      n < job.limit.getD roundLimit ∧ ∀ i ≤ n, goesOn i := by
  have hspares' : clock.Spares (Timer.start job.budget).budget := hspares
  simp only [Job.begins_iff_of_start hstart]
  rw [hscheduled.begins_iff hspares' hspares.start hfirst, Nat.zero_add]
  constructor
  · rintro ⟨_, hlt, hgoes⟩
    exact ⟨hlt, fun i => hgoes i (Nat.zero_le i)⟩
  · rintro ⟨hlt, hgoes⟩
    exact ⟨Nat.zero_le n, hlt, fun i _ => hgoes i⟩

/-- While the time lasts a job does its rounds up to the limit, or up to the first one that makes no
sense. -/
theorem exists_run {steps : Nat} (hscheduled : job.rounds.Scheduled J goesOn)
    (hspares : clock.Spares job.budget) (hstart : job.start.run σ = .ok first σ₀)
    (hfirst : J 0 first σ₀) (hlimit : steps ≤ job.limit.getD roundLimit)
    (hgoes : ∀ i < steps, goesOn i)
    (hend : steps = job.limit.getD roundLimit ∨ ¬ goesOn steps) :
    ∃ s σ', J steps s σ' ∧ (job.run clock).run σ = (job.answer s).run σ' := by
  have hspares' : clock.Spares (Timer.start job.budget).budget := hspares
  rw [← Nat.zero_add (job.limit.getD roundLimit)] at hlimit hend
  obtain ⟨s, σ', hrun, hs⟩ := (hscheduled.ends_runFrom hspares' hspares.start hfirst
    (Nat.zero_le steps) hlimit hgoes hend).exists_run
  refine ⟨s, σ', hs, ?_⟩
  rw [Job.run, run_bind_ok hstart]
  exact run_bind_ok hrun

end Anytime.Scheduled

end SetCover
