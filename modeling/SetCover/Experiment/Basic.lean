import SetCover.Heuristic.Call

/-!
# Experiments

An experiment says which heuristics run on an instance and with which parameters. The
cheapest-first construction always runs.

* `Experiment.standard`: the experiment that is run unless another one is asked for.
* `Experiment.withTimeLimit`: the same experiment with another budget of time.
* `Experiment.calls`, `Experiment.jobs`: the heuristics in the order in which they run.
-/

namespace SetCover

/-- Parameters of a multistart. -/
structure MultistartPlan where
  count : Nat
  size : Nat
  deriving DecidableEq

/-- Parameters of a multistart with noise. -/
structure NoisePlan where
  count : Nat
  size : Nat
  noise : Nat
  deriving DecidableEq

/-- Parameters of annealing. -/
structure AnnealingPlan where
  /-- In milliseconds. -/
  budget : Nat
  start : Float
  moves : Nat
  cooling : Cooling

/-- Parameters of variable neighbourhood search. -/
structure NeighbourhoodPlan where
  /-- In milliseconds. -/
  budget : Nat
  deriving DecidableEq

/-- Parameters of genetic search. -/
structure GeneticPlan where
  /-- In milliseconds. -/
  budget : Nat
  parameters : LeaderGenetic.Parameters

/-- The heuristics that run on an instance. -/
structure Experiment where
  settings : Settings
  multistart : Option MultistartPlan
  noise : Option NoisePlan
  annealing : Option AnnealingPlan
  neighbourhood : Option NeighbourhoodPlan
  genetic : Option GeneticPlan

namespace Experiment

/-- The experiment that is run unless another one is asked for. -/
def standard : Experiment where
  settings := {}
  multistart := some { count := 1000, size := 10 }
  noise := some { count := 1000, size := 10, noise := 5 }
  annealing := some { budget := 10000, start := 100.0, moves := 50, cooling := .geometric 0.95 }
  neighbourhood := some { budget := 10000 }
  genetic := some
    { budget := 10000
      parameters := { poolSize := 50, mates := 5, copy := 0.7, sample := 10 } }

/-- The same experiment, where every heuristic that has a budget of time gets this one. -/
def withTimeLimit (e : Experiment) (budget : Nat) : Experiment :=
  { e with
    annealing := e.annealing.map fun p => { p with budget }
    neighbourhood := e.neighbourhood.map fun p => { p with budget }
    genetic := e.genetic.map fun p => { p with budget } }

/-- The same experiment with another seed. -/
def withSeed (e : Experiment) (seed : Nat) : Experiment :=
  { e with settings := { e.settings with seed := some seed } }

/-- The calls with the names of their heuristics, in the order in which they run. -/
def calls (e : Experiment) : List (String × Call) :=
  [("constructive", .cheapestFirst)] ++
    (e.multistart.map fun p => ("grasp", .multistart p.count p.size 0)).toList ++
    (e.noise.map fun p => ("grasp_with_noise", .multistart p.count p.size p.noise)).toList ++
    (e.annealing.map fun p =>
      ("simulated_annealing", .annealing p.budget p.start p.moves p.cooling.temperature)).toList ++
    (e.neighbourhood.map fun p => ("vns", .neighbourhoods p.budget)).toList ++
    (e.genetic.map fun p => ("blga", .genetic p.budget p.parameters)).toList

/-- The heuristics with their names, in the order in which they run. -/
def jobs (e : Experiment) (inst : Instance) : List (String × Job) :=
  e.calls.map fun (name, call) => (name, call.job inst e.settings)

end Experiment

end SetCover
