import SetCover.Heuristic.Annealing
import SetCover.Heuristic.LeaderGenetic
import SetCover.Heuristic.VariableNeighbourhood

/-!
# Calls

A heuristic together with its parameters.

* `Call.job`: the job that a call asks for.
-/

namespace SetCover

/-- A heuristic and its parameters; budgets are in milliseconds. -/
inductive Call where
  | cheapestFirst
  | multistart (count size noise : Nat)
  | annealing (budget : Nat) (start : Float) (moves : Nat) (cooling : Float → Nat → Float)
  | neighbourhoods (budget : Nat)
  | genetic (budget : Nat) (parameters : LeaderGenetic.Parameters)

/-- The job that a call asks for. -/
def Call.job (inst : Instance) (settings : Settings) : Call → Job
  | cheapestFirst => Job.once (SetCover.cheapestFirst inst)
  | multistart count size noise => Job.once (SetCover.multistart inst count size noise)
  | annealing budget start moves cooling =>
      SetCover.annealing inst settings budget start moves cooling
  | neighbourhoods budget => variableNeighbourhood inst settings budget
  | genetic budget parameters => leaderGenetic inst settings budget parameters

end SetCover
