import SetCover.Instance.Json
import SetCover.Selection

/-!
# Selections in JSON

A selection is a record of its cost, its size and its ids. What is read is taken as it is; the
numbers are not compared with the ids.

* `Selection.toJson`: the record of a selection.
* `Selection.readJson`: the selection that a text describes.
-/

namespace SetCover.Selection

/-- The record of a selection. -/
def toJson (s : Selection) : Json :=
  .ofFields
    [("cost", .ofNat s.cost), ("subset_count", .ofNat s.size),
      ("subset_ids", .ofNats s.ids.toList)]

/-- The selection that a record describes. -/
def ofJson? (v : Json) : Option Selection := do
  let natural := Json.natural? wordBound
  match ← v.record? ["cost", "subset_count", "subset_ids"] with
  | [cost, size, ids] =>
      let ids ← Json.required? (Json.list? natural) ids
      some ⟨← Json.required? natural cost, ← Json.required? natural size, .ofList ids⟩
  | _ => none

/-- The selection that a text describes. -/
def readJson (text : String) : Except Fault Selection :=
  match Json.whole? text >>= ofJson? with
  | some s => .ok s
  | none => .error (.json none)

end SetCover.Selection
