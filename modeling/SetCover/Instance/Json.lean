import SetCover.Instance.Basic
import SetCover.Json.Decode
import SetCover.Json.Printer

/-!
# Instances in JSON

An instance is written as a record of its name, counts, costs and both relations. When it is read,
the second relation is not looked at but made anew from the first.

* `Instance.toJson`: the record of an instance.
* `Instance.ofJson`: the instance that a record describes.
* `Instance.readJson`: the instance that a text describes.
-/

namespace SetCover

/-- Natural numbers in JSON have 64 bits. -/
def wordBound : Nat := 2 ^ 64

namespace Instance

/-- The record of an instance. -/
def toJson (inst : Instance) : Json :=
  .ofFields
    [("name", .ofString inst.name), ("element_count", .ofNat inst.elementCount),
      ("subset_count", .ofNat inst.subsetCount), ("costs", .ofNats inst.costs.toList),
      ("coverage", .array (inst.holders.toList.map fun row => .ofNats row.toList)),
      ("members", .array (inst.contents.toList.map fun row => .ofNats row.toList))]

/-- The data of an instance as a record holds it. -/
structure Data where
  name : String
  elementCount : Nat
  subsetCount : Nat
  costs : List Nat
  rows : List (List Nat)

/-- The data that a record holds. The name may be missing. -/
def data? (v : Json) : Option Data := do
  let fields ← v.record? ["name", "element_count", "subset_count", "costs", "coverage"]
  match fields with
  | [name, elementCount, subsetCount, costs, rows] =>
      let natural := Json.natural? wordBound
      some
        { name := ← Json.withDefault? "" Json.string? name
          elementCount := ← Json.required? natural elementCount
          subsetCount := ← Json.required? natural subsetCount
          costs := ← Json.required? (Json.list? natural) costs
          rows := ← Json.required? (Json.list? (Json.list? natural)) rows }
  | _ => none

/-- The instance that a record describes. A record that is in order but describes data that is
refused is told from one that is not in order. -/
def ofJson (v : Json) : Except Fault Instance :=
  match data? v with
  | none => .error (.json none)
  | some data =>
      match build data.elementCount data.subsetCount data.costs data.rows with
      | .ok inst => .ok (inst.named data.name)
      | .error (.invalid why) => .error (.json (some why))
      | .error fault => .error fault

/-- The instance that a text describes. Data that is refused is reported even if the text goes on
with something else. -/
def readJson (text : String) : Except Fault Instance :=
  match Json.ofText? text with
  | none => .error (.json none)
  | some (v, whole) => do
      let inst ← ofJson v
      if whole then .ok inst else .error (.json none)

end Instance

end SetCover
