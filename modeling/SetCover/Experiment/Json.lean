import SetCover.Experiment.Basic
import SetCover.Instance.Json

/-!
# Experiments in JSON

An experiment is a record with a part for each heuristic. A part that is missing is that of the
standard experiment, and one that is null leaves its heuristic out; within a part, every key is
required. Settings that are missing have their standard values.

A cooling names its kind and, for some kinds, has one number. It is read more strictly than the
rest: every text and every number in it has to have a value, also where it does not matter.

* `Experiment.ofJson?`: the experiment that a record describes.
* `Experiment.readJson`: the experiment that a text describes.
* `coolingOfJson?`: the cooling that a record or a list describes.
-/

namespace SetCover

/-! ## Coolings -/

mutual

/-- Whether every text in a value has characters and every number is in range. -/
def meaningful : Json → Bool
  | .number n => n.toFloat?.isSome
  | .text s => s.isSome
  | .array items => meaningfulItems items
  | .object fields => meaningfulFields fields
  | _ => true

/-- Whether that holds for all items. -/
def meaningfulItems : List Json → Bool
  | [] => true
  | v :: rest => meaningful v && meaningfulItems rest

/-- Whether that holds for all fields. -/
def meaningfulFields : List (Option String × Json) → Bool
  | [] => true
  | (key, v) :: rest => key.isSome && meaningful v && meaningfulFields rest

end

/-- How deep a cooling may be nested. -/
def coolingDepth : Nat := 125

/-- The kinds of coolings: which number they need, and the cooling with it. -/
inductive CoolingKind where
  | plain (cooling : Cooling)
  | scaled (key : String) (cooling : Float → Cooling)

/-- The kind with a name. -/
def coolingKind? : String → Option CoolingKind
  | "linear" => some (.scaled "step" .linear)
  | "geometric" => some (.scaled "alpha" .geometric)
  | "logarithmic" => some (.plain .logarithmic)
  | "cauchy" => some (.plain .cauchy)
  | _ => none

/-- The value of a key that occurs exactly once. -/
def onlyValue? (fields : List (Option String × Json)) (key : String) : Option Json :=
  match fields.filter fun f => f.1 == some key with
  | [(_, v)] => some v
  | _ => none

/-- The cooling that a record describes, or a list of its kind and its number. -/
def coolingOfJson? (v : Json) : Option Cooling :=
  if !meaningful v || coolingDepth < v.depth then none
  else
    match v with
    | .object fields => do
        match ← coolingKind? (← (← onlyValue? fields "kind").string?) with
        | .plain cooling => some cooling
        | .scaled key cooling => some (cooling (← (← onlyValue? fields key).float?))
    | .array (kind :: rest) => do
        match ← coolingKind? (← kind.string?), rest with
        | .plain cooling, [] => some cooling
        | .scaled _ cooling, [x] => some (cooling (← x.float?))
        | _, _ => none
    | _ => none

/-! ## Parts -/

/-- The settings that a record describes. -/
def settingsOfJson? (v : Json) : Option Settings := do
  let natural := Json.natural? wordBound
  let standard : Settings := {}
  let keys := ["seed", "max_neighbor_attempts", "max_crossover_attempts", "max_iterations"]
  match ← v.record? keys with
  | [seed, swapAttempts, crossoverAttempts, rounds] =>
      some
        { seed := ← Json.withDefault? standard.seed (Json.nullable? natural) seed
          swapAttempts := ← Json.withDefault? standard.swapAttempts natural swapAttempts
          crossoverAttempts :=
            ← Json.withDefault? standard.crossoverAttempts natural crossoverAttempts
          rounds := ← Json.withDefault? standard.rounds (Json.nullable? natural) rounds }
  | _ => none

/-- The parameters of a multistart. -/
def multistartOfJson? (v : Json) : Option MultistartPlan := do
  let natural := Json.required? (Json.natural? wordBound)
  match ← v.record? ["max_sol_count", "k"] with
  | [count, size] => some { count := ← natural count, size := ← natural size }
  | _ => none

/-- The parameters of a multistart with noise. -/
def noiseOfJson? (v : Json) : Option NoisePlan := do
  let natural := Json.required? (Json.natural? wordBound)
  match ← v.record? ["max_sol_count", "k", "rho"] with
  | [count, size, noise] =>
      some { count := ← natural count, size := ← natural size, noise := ← natural noise }
  | _ => none

/-- The parameters of annealing. -/
def annealingOfJson? (v : Json) : Option AnnealingPlan := do
  let natural := Json.required? (Json.natural? wordBound)
  match ← v.record? ["max_runtime_ms", "init_temp", "iter_per_temp", "cooling"] with
  | [budget, start, moves, cooling] =>
      some
        { budget := ← natural budget
          start := ← Json.required? Json.float? start
          moves := ← natural moves
          cooling := ← Json.required? coolingOfJson? cooling }
  | _ => none

/-- The parameters of variable neighbourhood search. -/
def neighbourhoodOfJson? (v : Json) : Option NeighbourhoodPlan := do
  match ← v.record? ["max_runtime_ms"] with
  | [budget] => some { budget := ← Json.required? (Json.natural? wordBound) budget }
  | _ => none

/-- The parameters of genetic search. -/
def geneticOfJson? (v : Json) : Option GeneticPlan := do
  let natural := Json.required? (Json.natural? wordBound)
  let keys :=
    ["max_runtime_ms", "population_size", "mates_count", "gene_copy_probability",
      "rts_sample_size"]
  match ← v.record? keys with
  | [budget, poolSize, mates, copy, sample] =>
      some
        { budget := ← natural budget
          parameters :=
            { poolSize := ← natural poolSize
              mates := ← natural mates
              copy := ← Json.required? Json.float? copy
              sample := ← natural sample } }
  | _ => none

/-! ## Experiments -/

namespace Experiment

/-- The experiment that a record describes. -/
def ofJson? (v : Json) : Option Experiment := do
  let keys := ["solver", "grasp", "grasp_with_noise", "simulated_annealing", "vns", "blga"]
  match ← v.record? keys with
  | [settings, multistart, noise, annealing, neighbourhood, genetic] =>
      some
        { settings := ← Json.withDefault? standard.settings settingsOfJson? settings
          multistart :=
            ← Json.withDefault? standard.multistart (Json.nullable? multistartOfJson?) multistart
          noise := ← Json.withDefault? standard.noise (Json.nullable? noiseOfJson?) noise
          annealing :=
            ← Json.withDefault? standard.annealing (Json.nullable? annealingOfJson?) annealing
          neighbourhood :=
            ← Json.withDefault? standard.neighbourhood (Json.nullable? neighbourhoodOfJson?)
              neighbourhood
          genetic := ← Json.withDefault? standard.genetic (Json.nullable? geneticOfJson?) genetic }
  | _ => none

/-- The experiment that a text describes. -/
def readJson (text : String) : Except Fault Experiment :=
  match Json.whole? text >>= ofJson? with
  | some e => .ok e
  | none => .error (.json none)

end Experiment

end SetCover
