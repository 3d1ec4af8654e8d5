import SetCover.Decimal.Fixed

/-!
# Journals

What a search writes down while it runs: every decision in the order in which it was made. An entry
has a level and perhaps a wording; one without a wording is for the record only.

* `Event.level`, `Event.message`: when an entry is shown, and how it reads.
* `Event.heading`, `Event.line`: what stands in front of the wording, and the whole line.
* `Event.shown`: the wordings of a journal up to a level, without their headings.
-/

namespace SetCover

/-- How much a reader of the journal wants to see. -/
inductive Level where
  /-- Only what is suspicious. -/
  | warn
  /-- Also what changed the course of a search. -/
  | debug
  /-- Also every single step. -/
  | trace
  deriving DecidableEq

/-- The place of a level among the levels. -/
def Level.rank : Level → Nat
  | .warn => 0
  | .debug => 1
  | .trace => 2

/-- An entry of a journal. -/
inductive Event where
  /-- A neighbourhood was asked for that does not exist. -/
  | unknownNeighbourhood (index : Nat)
  /-- No random swap gave a cover. -/
  | swapsExhausted (attempts : Nat)
  /-- No crossover gave a cover. -/
  | crossoversExhausted (attempts : Nat)
  /-- A greedy construction took a subset. -/
  | subsetPicked (subset gained left : Nat)
  /-- A greedy construction drew a subset that covers nothing new. -/
  | subsetPassedOver (subset : Nat)
  /-- A construction is the best so far. -/
  | constructionImproved (index cost : Nat)
  /-- Annealing accepted a move at this temperature. -/
  | moveAccepted (temperature : Float) (delta : Int)
  /-- Annealing turned a move down. -/
  | moveRejected (delta : Int)
  /-- Annealing found a selection better than all before. -/
  | coolingImproved (step cost : Nat)
  /-- Annealing asked for a temperature. -/
  | temperatureAsked (start : Float) (step : Nat)
  /-- A round of the variable neighbourhood search moved within a neighbourhood. -/
  | neighbourhoodTaken (round index : Nat)
  /-- A neighbourhood gave a cheaper selection. -/
  | neighbourhoodImproved (round index cost : Nat)
  /-- An offspring became the leader. -/
  | leaderImproved (generation before after : Nat)
  /-- A member of the pool was replaced. -/
  | memberReplaced (index before after : Nat)

namespace Event

/-- The level at which an entry is shown. -/
def level : Event → Level
  | unknownNeighbourhood _ => .warn
  | subsetPicked .. | subsetPassedOver _ | moveAccepted .. | moveRejected _ | temperatureAsked ..
  | neighbourhoodTaken .. | memberReplaced .. => .trace
  | swapsExhausted _ | crossoversExhausted _ | constructionImproved .. | coolingImproved ..
  | neighbourhoodImproved .. | leaderImproved .. => .debug

/-- How an entry reads after its heading; `none` for an entry that is never shown. -/
def message : Event → Option String
  | unknownNeighbourhood index => s!"unknown neighbourhood index {index}"
  | swapsExhausted attempts => s!"random swap found no feasible neighbour in {attempts} attempts"
  | crossoversExhausted attempts => s!"no feasible offspring after {attempts} crossover attempts"
  | subsetPicked subset gained left =>
      s!"picked subset {subset} covering {gained} new elements, {left} left"
  | subsetPassedOver _ | moveRejected _ | temperatureAsked .. | neighbourhoodTaken .. => none
  | constructionImproved index cost => s!"construction {index}: new best cost {cost}"
  | moveAccepted _ delta => s!"accepted delta {delta}"
  | coolingImproved step cost => s!"SA step {step}: new best cost {cost}"
  | neighbourhoodImproved round index cost =>
      s!"VNS iteration {round}: neighbourhood {index} improved cost to {cost}"
  | leaderImproved generation before after =>
      s!"generation {generation}: leader improved from {before} to {after}"
  | memberReplaced index before after =>
      s!"replacing member {index} (cost {before}) with cost {after}"

/-- What stands in front of a wording: the temperature of an accepted move, to four places. -/
def heading : Event → String
  | moveAccepted temperature _ => "T = " ++ Decimal.fixed 4 temperature ++ ": "
  | _ => ""

/-- The line of an entry that is shown. -/
def line (e : Event) : Option String := e.message.map (e.heading ++ ·)

/-- The wordings of the entries up to a level, in order. -/
def shown (limit : Level) (journal : List Event) : List String :=
  journal.filterMap fun e => if e.level.rank ≤ limit.rank then e.message else none

end Event

end SetCover
