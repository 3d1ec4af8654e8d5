import SetCover.Instance.Json
import SetCover.Report.Span
import SetCover.Selection

/-!
# Records of runs

A record says what a heuristic found for an instance and how long it took. A report is a list of
records in JSON.

* `Record.of`: the record of a run.
* `Record.line`: a record in one line.
* `Record.readJson`: the record that a text describes.
* `reportText`: the text of a report.
-/

namespace SetCover

/-- What a heuristic found for an instance. -/
structure Record where
  /-- The name of the instance. -/
  instanceName : String
  /-- The name of the heuristic. -/
  heuristic : String
  cost : Nat
  size : Nat
  /-- The chosen subsets, counted from one. -/
  ids : List Nat
  /-- The time it took, in milliseconds. -/
  runtime : Nat
  deriving DecidableEq

namespace Record

/-- The record of a run. -/
def of (inst : Instance) (heuristic : String) (s : Selection) (runtime : Span) : Record where
  instanceName := inst.name
  heuristic
  cost := s.cost
  size := s.size
  ids := s.ids.toList.map (· + 1)
  runtime := runtime.milliseconds

/-- The record in one line. The time is shown modulo `2 ^ 64` milliseconds. -/
def line (r : Record) : String :=
  Text.padRight 12 ' ' r.instanceName ++ " " ++ Text.padRight 20 ' ' r.heuristic ++ " cost " ++
    Text.padLeft 8 ' ' (toString r.cost) ++ "  subsets " ++
    Text.padLeft 5 ' ' (toString r.size) ++ "  " ++
    (Span.ofMilliseconds (r.runtime % 2 ^ 64)).text

/-- The record in JSON. -/
def toJson (r : Record) : Json :=
  .ofFields
    [("instance", .ofString r.instanceName), ("algorithm", .ofString r.heuristic),
      ("cost", .ofNat r.cost), ("subset_count", .ofNat r.size), ("subset_ids", .ofNats r.ids),
      ("runtime_ms", .ofNat r.runtime)]

/-- The record that a JSON value describes. Its time has up to 128 bits. -/
def ofJson? (v : Json) : Option Record := do
  let natural := Json.natural? wordBound
  let keys := ["instance", "algorithm", "cost", "subset_count", "subset_ids", "runtime_ms"]
  match ← v.record? keys with
  | [name, heuristic, cost, size, ids, runtime] =>
      some
        { instanceName := ← Json.required? Json.string? name
          heuristic := ← Json.required? Json.string? heuristic
          cost := ← Json.required? natural cost
          size := ← Json.required? natural size
          ids := ← Json.required? (Json.list? natural) ids
          runtime := ← Json.required? (Json.natural? (2 ^ 128)) runtime }
  | _ => none

/-- The record that a text describes. -/
def readJson (text : String) : Except Fault Record :=
  match Json.whole? text >>= ofJson? with
  | some r => .ok r
  | none => .error (.json none)

end Record

/-- The text of a report. -/
def reportText (records : List Record) : String :=
  (Json.array (records.map Record.toJson)).prettyText ++ "\n"

end SetCover
