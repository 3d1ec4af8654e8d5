import SetCover.Heuristic.Anytime
import SetCover.Heuristic.Cooling
import SetCover.Heuristic.Multistart
import SetCover.Heuristic.Settings
import SetCover.Swap.Random

/-!
# Simulated annealing

Annealing walks from cover to cover by random swaps. A move to a cover that costs no more is always
accepted; one to a more expensive cover is accepted with a chance that falls with the difference
and with the temperature. The answer is the best cover on the way.

* `Annealing.move`: one random swap and its acceptance.
* `Annealing.round`: all moves at one temperature, and the next temperature.
* `annealing`: the whole heuristic, for an arbitrary cooling.
-/

namespace SetCover

namespace Annealing

/-- What a run of annealing works on. -/
structure State where
  current : Selection
  /-- The cheapest selection accepted so far, the first of them where costs are equal. -/
  best : Selection
  temperature : Float

/-- Whether a move is accepted that makes the cost larger by `delta`. A move that does not is
accepted without a draw. -/
def accepted (temperature : Float) (delta : Int) : Search Bool := do
  if delta ≤ 0 then pure true
  else
    let u ← Search.unit
    pure (u < (-(Float.ofInt delta) / temperature).exp)

/-- One random swap; `step` is the number of temperatures before this one. -/
def move (inst : Instance) (attempts step : Nat) (s : State) : Search State := do
  let neighbour ← randomSwap inst attempts s.current
  let delta := neighbour.delta s.current
  if ← accepted s.temperature delta then
    Search.note (.moveAccepted s.temperature delta)
    if neighbour.cost < s.best.cost then
      Search.note (.coolingImproved step neighbour.cost)
      pure { s with current := neighbour, best := neighbour }
    else pure { s with current := neighbour }
  else
    Search.note (.moveRejected delta)
    pure s

/-- Several moves at one temperature. -/
def moves (inst : Instance) (attempts step : Nat) : Nat → State → Search State
  | 0, s => pure s
  | left + 1, s => do moves inst attempts step left (← move inst attempts step s)

/-- All moves at one temperature, and then the next temperature. -/
def round (inst : Instance) (attempts : Nat) (start : Float) (count : Nat)
    (cooling : Float → Nat → Float) (step : Nat) (s : State) : Search State := do
  let s ← moves inst attempts step count s
  Search.note (.temperatureAsked start (stepCount (step + 1)))
  pure { s with temperature := cooling start (stepCount (step + 1)) }

/-- Checks the temperature at the start and the number of moves per temperature. -/
def check (start : Float) (count : Nat) : Except Fault Unit :=
  if !start.isFinite || start < 0.0 then .error (.invalid (.startTemperature start))
  else if count = 0 then .error (.invalid .noMoves)
  else .ok ()

end Annealing

/-- Simulated annealing from the cheapest-first construction: `count` moves at each temperature,
for as long as the temperature is above zero. -/
def annealing (inst : Instance) (settings : Settings) (budget : Nat) (start : Float) (count : Nat)
    (cooling : Float → Nat → Float) : Job where
  State := Annealing.State
  start := do
    Annealing.check start count
    let s ← cheapestFirst inst
    pure ⟨s, s, start⟩
  rounds :=
    { live := fun s => 0.0 < s.temperature
      round := Annealing.round inst settings.swapAttempts start count cooling }
  answer := fun s => pure s.best
  budget
  limit := settings.rounds

end SetCover
