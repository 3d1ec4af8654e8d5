/-!
# Settings

What all heuristics of one solver have in common.
-/

namespace SetCover

/-- Settings shared by all heuristics. -/
structure Settings where
  /-- The seed of the random source; without one the source is seeded anew each time. -/
  seed : Option Nat := none
  /-- Most random swaps that are drawn for one move. -/
  swapAttempts : Nat := 1000
  /-- Most children that are made for one offspring. -/
  crossoverAttempts : Nat := 1000
  /-- Most rounds of a heuristic that works in rounds. -/
  rounds : Option Nat := none
  deriving DecidableEq

end SetCover
