import SetCover.CommandLine.Arguments
import SetCover.Experiment.Json
import SetCover.Instance.File
import SetCover.Random.Keystream
import SetCover.Report.Record

/-!
# Runs of experiments

A run reads the experiment, then instance after instance, runs the heuristics on each, and writes
the report at the end. The first fault ends it, and then there is no report. What a run needs from
its surroundings is a `Host`, so that it can be run against a table of files as well.

* `Host`: reading, writing, printing, the time and a random seed.
* `evaluate`: all heuristics on one instance, which share one random source.
* `execute`: a whole run.
-/

namespace SetCover.CommandLine

/-- The surroundings of a run. -/
structure Host (m : Type → Type) where
  /-- What a path leads to. -/
  read : String → m FileContent
  /-- Puts a text into a file. -/
  write : String → String → m (Except FileTrouble Unit)
  /-- Prints a line. -/
  say : String → m Unit
  /-- A seed for a run that is given none. -/
  freshSeed : m UInt64
  /-- Runs a heuristic and measures its time. -/
  perform : Job → Session → m (Except Fault (Selection × Span) × Session)

variable {m : Type → Type} [Monad m]

/-- A value, or the end of the run. -/
def orFail {α : Type} (result : Except Fault α) : ExceptT Fault m α := ExceptT.mk (pure result)

/-- Runs heuristics one after another, prints a line for each, and gives their records; `records`
holds those of the run so far, last one first. -/
def performAll (host : Host m) (inst : Instance) :
    List (String × Job) → Session → List Record → ExceptT Fault m (List Record)
  | [], _, records => pure records
  | (name, job) :: rest, session, records => do
      let (result, session) ← host.perform job session
      let (selection, runtime) ← orFail result
      let record := Record.of inst name selection runtime
      host.say record.line
      performAll host inst rest session (record :: records)

/-- All heuristics of an experiment on one instance. -/
def evaluate (host : Host m) (experiment : Experiment) (inst : Instance) (records : List Record) :
    ExceptT Fault m (List Record) := do
  orFail inst.requireCoverable
  let seed ←
    match experiment.settings.seed with
    | some seed => pure seed.toUInt64
    | none => host.freshSeed
  performAll host inst (experiment.jobs inst) ⟨Source.seeded seed, []⟩ records

/-- The experiment on the instances of some files, one after another. -/
def evaluateFiles (host : Host m) (experiment : Experiment) :
    List String → List Record → ExceptT Fault m (List Record)
  | [], records => pure records
  | path :: rest, records => do
      let inst ← orFail (Instance.ofFile path (← host.read path))
      let counts := s!"with {inst.elementCount} elements and {inst.subsetCount} subsets"
      host.say ("Loaded problem: " ++ inst.name ++ " " ++ counts)
      let records ← evaluate host experiment inst records
      evaluateFiles host experiment rest records

/-- The experiment that the options ask for. -/
def experimentOf (host : Host m) (o : Options) : ExceptT Fault m Experiment := do
  let experiment ←
    match o.config with
    | some path => do
        let text ← orFail (textOf (← host.read path))
        orFail (Experiment.readJson text)
    | none => pure Experiment.standard
  let experiment :=
    match o.seed with
    | some seed => experiment.withSeed seed
    | none => experiment
  pure
    (match o.timeLimit with
      | some budget => experiment.withTimeLimit budget
      | none => experiment)

/-- A whole run. -/
def execute (host : Host m) (o : Options) : ExceptT Fault m Unit := do
  let experiment ← experimentOf host o
  let records ← evaluateFiles host experiment o.instances []
  let output := o.output.getD defaultOutput
  match ← host.write output (reportText records.reverse) with
  | .ok () => host.say ("Report written to: " ++ output)
  | .error why => throw (.file why)

/-- What the program calls itself. -/
def versionText : String := "scp-heuristics 0.1.0"

/-- How a fault is reported. -/
def faultText (fault : Fault) : String := "error: " ++ fault.message

/-- The exit code of a run that ended with this fault. -/
def exitCode : Fault → UInt32
  | .breach _ => 101
  | _ => 1

end SetCover.CommandLine
