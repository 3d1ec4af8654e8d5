import SetCover.Heuristic.Anytime
import SetCover.Heuristic.Multistart
import SetCover.Heuristic.Settings
import SetCover.Swap.Neighbourhood

/-!
# Variable neighbourhood search

Each round looks for a neighbour that costs no more, first in the quick neighbourhoods and then in
the thorough ones, and moves to the first such neighbour.

* `VariableNeighbourhood.descend`: one round.
* `variableNeighbourhood`: the whole heuristic.
-/

namespace SetCover

namespace VariableNeighbourhood

/-- Moves to the first neighbour that costs no more, in the neighbourhoods given with their
indices. -/
def descend (inst : Instance) (attempts round : Nat) (current : Selection) :
    List (Neighbourhood × Nat) → Search Selection
  | [] => pure current
  | (hood, index) :: rest => do
      let neighbour ← hood.move inst attempts current
      if neighbour.delta current ≤ 0 then
        Search.note (.neighbourhoodTaken round index)
        if neighbour.cost < current.cost then
          Search.note (.neighbourhoodImproved round index neighbour.cost)
        pure neighbour
      else descend inst attempts round current rest

end VariableNeighbourhood

/-- Variable neighbourhood search from the cheapest-first construction. -/
def variableNeighbourhood (inst : Instance) (settings : Settings) (budget : Nat) : Job where
  State := Selection
  start := cheapestFirst inst
  rounds :=
    { live := fun _ => true
      round := fun i s =>
        VariableNeighbourhood.descend inst settings.swapAttempts i s Neighbourhood.all.zipIdx }
  answer := pure
  budget
  limit := settings.rounds

end SetCover
