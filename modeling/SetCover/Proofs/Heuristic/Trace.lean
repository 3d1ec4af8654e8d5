import Mathlib.Tactic.Choose
import SetCover.Heuristic.Anytime
import SetCover.Proofs.Search.Outcome

/-!
# Rounds of anytime heuristics

A trace is a run without end: the state before each round, where no round fails. Every run from
the first state of a trace ends in one of its states, wherever the clock stops it.

* `Anytime.exists_trace`: rounds that keep an invariant and never fail have a trace.
* `Anytime.Trace.run_eq`: the runs along a trace.
* `ends_job`: an invariant of the rounds holds at the end of a run.
* `ends_job_of_over`: what holds at the end of a run that has no rounds.
* `Job.Begins`, `Begins.invariant`: the rounds that a run begins, and what holds before each.
-/

namespace SetCover

open Search

/-- A run of rounds without end. -/
structure Anytime.Trace {State : Type} (h : Anytime State) where
  /-- The state before each round. -/
  state : Nat → State
  /-- The session before each round. -/
  session : Nat → Session
  round_eq : ∀ n, (h.round n (state n)).run (session n) = .ok (state (n + 1)) (session (n + 1))

variable {State : Type} {h : Anytime State} {E : Fault → Session → Prop} {σ : Session} {s : State}

namespace Anytime

/-! ## Traces -/

/-- Rounds that keep an invariant and never fail go on without end from wherever it holds. -/
theorem exists_trace {I : State → Prop} (hs : I s)
    (hround : ∀ n s σ, I s → Ends (h.round n s) noFault (fun s' _ => I s') σ) :
    ∃ t : h.Trace, t.state 0 = s ∧ t.session 0 = σ ∧ ∀ n, I (t.state n) := by
  have hnext : ∀ n (p : { p : State × Session // I p.1 }),
      ∃ q : { q : State × Session // I q.1 },
        (h.round n p.val.1).run p.val.2 = .ok q.val.1 q.val.2 := by
    intro n p
    obtain ⟨s', σ', hrun, hs'⟩ := (hround n p.val.1 p.val.2 p.property).exists_run
    exact ⟨⟨(s', σ'), hs'⟩, hrun⟩
  choose next hrun using hnext
  let path : Nat → { p : State × Session // I p.1 } := fun n => n.rec ⟨(s, σ), hs⟩ next
  exact ⟨⟨fun n => (path n).val.1, fun n => (path n).val.2, fun n => hrun n (path n)⟩,
    rfl, rfl, fun n => (path n).property⟩

namespace Trace

theorem runFrom_eq (t : h.Trace) (clock : Clock) (left done : Nat) (timer : Timer) :
    ∃ n, n ≤ left ∧ (h.runFrom clock left done timer (t.state done)).run (t.session done) =
      .ok (t.state (done + n)) (t.session (done + n)) := by
  induction left generalizing done timer with
  | zero => exact ⟨0, Nat.le_refl _, rfl⟩
  | succ left ih =>
      rw [runFrom]
      split
      · exact ⟨0, Nat.zero_le _, rfl⟩
      · obtain ⟨n, hn, hrun⟩ := ih (done + 1) (timer.tick (clock done))
        refine ⟨n + 1, Nat.succ_le_succ hn, ?_⟩
        rw [run_bind_ok (t.round_eq done), hrun, Nat.add_assoc, Nat.add_comm 1]

/-- A run from the first state of a trace ends in one of its states. -/
theorem run_eq (t : h.Trace) (clock : Clock) (budget : Nat) (rounds : Option Nat) :
    ∃ n, n ≤ rounds.getD roundLimit ∧
      (h.run clock budget rounds (t.state 0)).run (t.session 0) =
        .ok (t.state n) (t.session n) := by
  obtain ⟨n, hn, hrun⟩ := t.runFrom_eq clock (rounds.getD roundLimit) 0 (Timer.start budget)
  rw [Nat.zero_add] at hrun
  exact ⟨n, hn, hrun⟩

end Trace

end Anytime

/-! ## Runs without rounds -/

theorem Anytime.runFrom_of_over {clock : Clock} {timer : Timer}
    (hover : (timer.stopped || !h.live s) = true) (left done : Nat) :
    h.runFrom clock left done timer s = pure s := by
  cases left with
  | zero => rfl
  | succ left => rw [runFrom, if_pos hover]

theorem Anytime.run_of_over {clock : Clock} {budget : Nat} {rounds : Option Nat}
    (hover : budget = 0 ∨ rounds = some 0 ∨ h.live s = false) :
    h.run clock budget rounds s = pure s := by
  rcases hover with rfl | rfl | hlive
  · exact runFrom_of_over rfl _ 0
  · rfl
  · refine runFrom_of_over ?_ _ 0
    rw [hlive, Bool.not_false, Bool.or_true]

/-! ## Jobs -/

/-- A job from its start over its rounds to its answer. -/
theorem job_run_eq {job : Job} {clock : Clock} {s s' : job.State} {σ σ₀ σ₁ σ₂ : Session}
    {answer : Selection} (hstart : job.start.run σ = .ok s σ₀)
    (hrounds : (job.rounds.run clock job.budget job.limit s).run σ₀ = .ok s' σ₁)
    (hanswer : (job.answer s').run σ₁ = .ok answer σ₂) :
    (job.run clock).run σ = .ok answer σ₂ := by
  rw [Job.run, run_bind_ok hstart, run_bind_ok hrounds, hanswer]

/-! ## Invariants -/

theorem ends_runFrom {I : State → Session → Prop} (hround : ∀ n s σ, I s σ → Ends (h.round n s) E
    I σ) (clock : Clock) (left done : Nat) (timer : Timer) (hs : I s σ) :
    Ends (h.runFrom clock left done timer s) E I σ := by
  induction left generalizing done timer s σ with
  | zero => exact ends_pure hs
  | succ left ih =>
      rw [Anytime.runFrom]
      split
      · exact ends_pure hs
      · refine ends_bind (hround done s σ hs) fun s' σ' hs' => ?_
        exact ih (done + 1) (timer.tick (clock done)) hs'

/-- The rule for whole heuristics, where the invariant may also speak of the session. -/
theorem ends_job_session {job : Job} {I : job.State → Session → Prop}
    {Q : Selection → Session → Prop} (hstart : Ends job.start E I σ)
    (hround : ∀ n s σ, I s σ → Ends (job.rounds.round n s) E I σ)
    (hanswer : ∀ s σ, I s σ → Ends (job.answer s) E Q σ) (clock : Clock) :
    Ends (job.run clock) E Q σ := by
  refine ends_bind hstart fun s σ hs => ?_
  refine ends_bind (ends_runFrom hround clock _ _ _ hs) fun s' σ' hs' => ?_
  exact hanswer s' σ' hs'

/-- The rule for whole heuristics: the start has the invariant, every round keeps it, and from it
follows what the answer has to satisfy. -/
theorem ends_job {job : Job} {I : job.State → Prop} {Q : Selection → Session → Prop}
    (hstart : Ends job.start E (fun s _ => I s) σ)
    (hround : ∀ n s σ, I s → Ends (job.rounds.round n s) E (fun s' _ => I s') σ)
    (hanswer : ∀ s σ, I s → Ends (job.answer s) E Q σ) (clock : Clock) :
    Ends (job.run clock) E Q σ :=
  ends_job_session hstart hround hanswer clock

/-- The rule for heuristics that are over after their start, since there is no time, there are no
rounds, or no round makes sense. -/
theorem ends_job_of_over {job : Job} {I : job.State → Prop} {Q : Selection → Session → Prop}
    (hover : job.budget = 0 ∨ job.limit = some 0 ∨ ∀ s, I s → job.rounds.live s = false)
    (hstart : Ends job.start E (fun s _ => I s) σ)
    (hanswer : ∀ s σ, I s → Ends (job.answer s) E Q σ) (clock : Clock) :
    Ends (job.run clock) E Q σ := by
  refine ends_bind hstart fun s σ hs => ?_
  rw [Anytime.run_of_over (hover.imp_right (Or.imp_right fun hlive => hlive s hs)), pure_bind]
  exact hanswer s σ hs

/-! ## Rounds that a run begins -/

/-- A run, with the numbers of rounds left and done, begins its round `n` in the state `s'` and the
session `σ'`. -/
inductive Anytime.Begins {State : Type} (h : Anytime State) (clock : Clock) :
    Nat → Nat → Timer → State → Session → Nat → State → Session → Prop
  | now {left done : Nat} {timer : Timer} {s : State} {σ : Session} :
      timer.stopped = false → h.live s = true →
      Begins h clock (left + 1) done timer s σ done s σ
  | later {left done n : Nat} {timer : Timer} {s s₁ s' : State} {σ σ₁ σ' : Session} :
      timer.stopped = false → h.live s = true → (h.round done s).run σ = .ok s₁ σ₁ →
      Begins h clock left (done + 1) (timer.tick (clock done)) s₁ σ₁ n s' σ' →
      Begins h clock (left + 1) done timer s σ n s' σ'

/-- A run of the job begins its round `n` in the state `s` and the session `σ'`. -/
def Job.Begins (job : Job) (clock : Clock) (σ : Session) (n : Nat) (s : job.State)
    (σ' : Session) : Prop :=
  ∃ s₀ σ₀, job.start.run σ = .ok s₀ σ₀ ∧ job.rounds.Begins clock (job.limit.getD roundLimit) 0
    (Timer.start job.budget) s₀ σ₀ n s σ'

namespace Anytime

variable {clock : Clock} {left done n : Nat} {timer : Timer} {s' : State} {σ' : Session}

theorem runFrom_of_live (hstopped : timer.stopped = false) (hlive : h.live s = true) :
    h.runFrom clock (left + 1) done timer s =
      h.round done s >>= h.runFrom clock left (done + 1) (timer.tick (clock done)) := by
  rw [runFrom, hstopped, hlive, if_neg (by decide)]

/-- From where it begins a round, a run does that round and goes on. -/
theorem Begins.runFrom_eq (hbegins : h.Begins clock left done timer s σ n s' σ') :
    ∃ left' timer', (h.runFrom clock left done timer s).run σ =
      (h.round n s' >>= h.runFrom clock left' (n + 1) timer').run σ' := by
  induction hbegins with
  | now hstopped hlive => exact ⟨_, _, by rw [runFrom_of_live hstopped hlive]⟩
  | later hstopped hlive hrun _ ih =>
      obtain ⟨left', timer', hrest⟩ := ih
      exact ⟨left', timer', by rw [runFrom_of_live hstopped hlive, run_bind_ok hrun, hrest]⟩

theorem Begins.invariant {I : State → Prop} (hbegins : h.Begins clock left done timer s σ n s' σ')
    (hround : ∀ n s σ, I s → Ends (h.round n s) anyFault (fun s' _ => I s') σ) (hs : I s) :
    I s' := by
  induction hbegins with
  | now => exact hs
  | later _ _ hrun _ ih => exact ih ((hround _ _ _ hs).of_run hrun)

end Anytime

/-- What the start has and every round keeps holds before every round. -/
theorem Job.Begins.invariant {job : Job} {I : job.State → Prop} {clock : Clock} {n : Nat}
    {s : job.State} {σ' : Session} (hbegins : job.Begins clock σ n s σ')
    (hstart : Ends job.start anyFault (fun s _ => I s) σ)
    (hround : ∀ n s σ, I s → Ends (job.rounds.round n s) anyFault (fun s' _ => I s') σ) : I s := by
  obtain ⟨s₀, σ₀, hrun, hbegins⟩ := hbegins
  exact hbegins.invariant hround (hstart.of_run hrun)

end SetCover
