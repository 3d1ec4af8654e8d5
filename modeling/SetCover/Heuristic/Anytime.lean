import SetCover.Selection
import SetCover.Search.Basic

/-!
# Anytime heuristics

An anytime heuristic improves a state in rounds and can be stopped between any two of them. A run
ends when its time is up, when its number of rounds is reached, or when the state is no longer
live. The time is looked at once per round, so a round that has begun is finished.

* `Timer`: whether the time is up, as of the last look at the clock.
* `Anytime.run`: all rounds of a run.
* `Job.run`: a heuristic from its start to its answer.
-/

namespace SetCover

/-! ## Time -/

/-- Time spent, in nanoseconds, at each look at a clock. -/
abbrev Clock := Nat → Nat

/-- A budget of time that is looked at now and then. -/
structure Timer where
  /-- The budget, in milliseconds. -/
  budget : Nat
  /-- Whether the budget was found to be spent. Once it is, it stays so. -/
  stopped : Bool
  deriving DecidableEq

namespace Timer

/-- A timer at its start. A budget of nothing is spent at once. -/
def start (budget : Nat) : Timer := ⟨budget, budget == 0⟩

/-- The timer after a look at the clock that shows `elapsed` nanoseconds. -/
def tick (t : Timer) (elapsed : Nat) : Timer :=
  { t with stopped := t.stopped || decide (t.budget * 1000000 ≤ elapsed) }

end Timer

/-! ## Rounds -/

/-- A heuristic that works in rounds. -/
structure Anytime (State : Type) where
  /-- Whether another round makes sense. -/
  live : State → Bool
  /-- One round; rounds count from zero. -/
  round : Nat → State → Search State

/-- The number of rounds that the round counter can tell apart, and that ends a run without a
limit of its own. -/
def roundLimit : Nat := 2 ^ 64

/-- Goes on for `left` rounds at most, after `done` rounds. -/
def Anytime.runFrom {State : Type} (h : Anytime State) (clock : Clock) :
    Nat → Nat → Timer → State → Search State
  | 0, _, _, s => pure s
  | left + 1, done, timer, s =>
      if timer.stopped || !h.live s then pure s
      else do
        let s ← h.round done s
        h.runFrom clock left (done + 1) (timer.tick (clock done)) s

/-- All rounds of a run with a budget of time and perhaps a limit of rounds. -/
def Anytime.run {State : Type} (h : Anytime State) (clock : Clock) (budget : Nat)
    (rounds : Option Nat) (s : State) : Search State :=
  h.runFrom clock (rounds.getD roundLimit) 0 (Timer.start budget) s

/-! ## Jobs -/

/-- Everything about one run of a heuristic. -/
structure Job where
  /-- What a round works on. -/
  State : Type
  /-- Checks the parameters and makes the first state. -/
  start : Search State
  /-- The rounds. -/
  rounds : Anytime State
  /-- What the last state amounts to. -/
  answer : State → Search Selection
  /-- Time for the run, in milliseconds. -/
  budget : Nat
  /-- Most rounds of the run. -/
  limit : Option Nat

/-- A heuristic from its start to its answer. -/
def Job.run (job : Job) (clock : Clock) : Search Selection := do
  let s ← job.start
  let s ← job.rounds.run clock job.budget job.limit s
  job.answer s

/-- A heuristic that is over after its start. -/
def Job.once (search : Search Selection) : Job where
  State := Selection
  start := search
  rounds := { live := fun _ => false, round := fun _ s => pure s }
  answer := pure
  budget := 0
  limit := some 0

end SetCover
