import SetCover.Instance.Reader

/-!
# Files

What a path leads to, as far as reading is concerned, and instances from files. An instance takes
its name from its file.

* `textOf`: the text of a file.
* `stem`: the name of a file without its last extension.
* `Instance.ofFile`: the instance that a file describes.
-/

namespace SetCover

/-- What a path leads to: the bytes of a file, or none. -/
abbrev FileContent := Except FileTrouble ByteArray

/-- The text of a file. -/
def textOf : FileContent → Except Fault String
  | .error why => .error (.file why)
  | .ok data =>
      match String.fromUTF8? data with
      | some text => .ok text
      | none => .error (.file .notUtf8)

/-- The parts of a path between slashes. Slashes in a row count as one. -/
def pathParts (path : String) : List String := (path.splitOn "/").filter (· != "")

/-- The name of a file without its last extension: the part of the name before the last dot,
unless that dot is the first character. -/
def stem (path : String) : String :=
  match ((pathParts path).filter (· != ".")).getLast? with
  | none | some ".." => ""
  | some name =>
      let reversed := name.toList.reverse
      let front := ((reversed.dropWhile (· != '.')).drop 1).reverse
      if front.isEmpty then name else String.ofList front

/-- The instance that a file describes. -/
def Instance.ofFile (path : String) (content : FileContent) : Except Fault Instance := do
  let text ← textOf content
  let inst ← Instance.read text
  pure (inst.named (stem path))

end SetCover
