import SetCover.Json.Value
import SetCover.Text.Numeral

/-!
# Data in JSON values

What a JSON value says about numbers, texts, lists and records. A record is an object in which
each known key occurs at most once and unknown keys do not matter, or an array of the values of the
known keys, in order, of which some at the end may be missing.

* `Json.natural?`, `Json.float?`, `Json.string?`, `Json.list?`, `Json.nullable?`: single values.
* `Json.record?`: the values of the known keys.
* `required?`, `withDefault?`: a value that has to be there, and one that need not.
-/

namespace SetCover.Json

/-! ## Numbers -/

/-- A natural number below `bound`, written without sign, point and exponent. -/
def natural? (bound : Nat) : Json → Option Nat
  | .number ⟨false, whole, none, none⟩ =>
      let n := Text.digitsValue whole
      if n < bound then some n else none
  | _ => none

/-- Powers of ten beyond this take every number with digits before them out of the range of
floating-point numbers. -/
def powerLimit : Int := 400

/-- The floating-point number nearest to a number as it is written; `none` when that is beyond all
finite ones. -/
def Number.toFloat? (n : Number) : Option Float :=
  let places := n.fraction.getD []
  let power : Int :=
    match n.exponent with
    | some (true, digits) => -(Text.digitsValue digits : Int)
    | some (false, digits) => Text.digitsValue digits
    | none => 0
  let mantissa := Text.digitsValue (n.whole ++ places)
  -- the number lies below `10 ^ top`, and not below `10 ^ (top - 1)` unless it has leading zeros
  let power := power - places.length
  let top := power + (toString mantissa).length
  let size : Option Float :=
    if mantissa = 0 ∨ top < -powerLimit then some 0.0
    else if powerLimit < top then none
    else
      let x := Float.ofScientific mantissa (power < 0) power.natAbs
      if x.isFinite then some x else none
  size.map fun x => if n.negative then -x else x

/-- A floating-point number. -/
def float? : Json → Option Float
  | .number n => n.toFloat?
  | _ => none

/-! ## Other values -/

/-- A text. -/
def string? : Json → Option String
  | .text s => s
  | _ => none

/-- A list of items. -/
def list? {α : Type} (item? : Json → Option α) : Json → Option (List α)
  | .array items => items.mapM item?
  | _ => none

/-- A value, or null for none. -/
def nullable? {α : Type} (value? : Json → Option α) : Json → Option (Option α)
  | .null => some none
  | v => (value? v).map some

/-! ## Records -/

/-- The value of a key among some fields. -/
def fieldValue (fields : List (Option String × Json)) (key : String) : Option Json :=
  (fields.find? fun f => f.1 == some key).map (·.2)

/-- Whether every key has characters, and each known key occurs at most once. -/
def keysInOrder (keys : List String) (fields : List (Option String × Json)) : Bool :=
  fields.all (fun f => f.1.isSome) &&
    keys.all fun key => (fields.countP fun f => f.1 == some key) ≤ 1

/-- The values of the known keys, `none` for a missing one. -/
def record? (keys : List String) : Json → Option (List (Option Json))
  | .object fields =>
      if keysInOrder keys fields then some (keys.map (fieldValue fields)) else none
  | .array items =>
      if items.length ≤ keys.length then
        some ((List.range keys.length).map (items[·]?))
      else none
  | _ => none

/-- A value that has to be there. -/
def required? {α : Type} (value? : Json → Option α) : Option Json → Option α
  | some v => value? v
  | none => none

/-- A value that need not be there. -/
def withDefault? {α : Type} (default : α) (value? : Json → Option α) : Option Json → Option α
  | some v => value? v
  | none => some default

end SetCover.Json
