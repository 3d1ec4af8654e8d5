import SetCover.Swap.Random
import SetCover.Swap.Sweep
import SetCover.Swap.Best

/-!
# Neighbourhoods

The neighbourhoods of a selection differ in how many swaps they try before one is carried out.

* `Neighbourhood.all`: the neighbourhoods, from the quickest to the most thorough.
* `Neighbourhood.move`: a neighbour of a selection.
* `moveAt`: a neighbour in the neighbourhood with an index.
-/

namespace SetCover

/-- A way to find a neighbour of a selection. -/
inductive Neighbourhood where
  /-- The first random swap that gives a cover. -/
  | random
  /-- The best of one random swap for each selected subset. -/
  | sweep
  /-- The best of all swaps. -/
  | best
  deriving DecidableEq

namespace Neighbourhood

/-- The neighbourhoods, from the quickest to the most thorough. -/
def all : List Neighbourhood := [random, sweep, best]

/-- The neighbourhood with an index. -/
def ofIndex? (index : Nat) : Option Neighbourhood := all[index]?

/-- A neighbour of a selection; `attempts` bounds the number of random swaps. -/
def move (inst : Instance) (attempts : Nat) (current : Selection) :
    Neighbourhood → Search Selection
  | random => randomSwap inst attempts current
  | sweep => SetCover.sweep inst current
  | best => Search.ofExcept (bestSwap inst current)

end Neighbourhood

/-- A neighbour in the neighbourhood with an index; the selection of nothing where there is no such
neighbourhood. -/
def moveAt (inst : Instance) (attempts : Nat) (current : Selection) (index : Nat) :
    Search Selection :=
  match Neighbourhood.ofIndex? index with
  | some hood => hood.move inst attempts current
  | none => do
      Search.note (.unknownNeighbourhood index)
      pure .empty

end SetCover
