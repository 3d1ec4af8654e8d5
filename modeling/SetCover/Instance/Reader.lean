import SetCover.Instance.Basic
import SetCover.Text.Blank
import SetCover.Text.Numeral

/-!
# Reading instance texts

An instance text is a sequence of numerals between blanks: the number of elements, the number of
subsets, the cost of each subset, and for each element how many subsets hold it, followed by
their ids, which count from one. What follows the last row is not looked at.

* `Reading.number`, `Reading.many`: one number, and a counted sequence.
* `Instance.read`: the instance that a text describes, or the first thing wrong with it. The
  position of a fault counts tokens from one.
-/

namespace SetCover

/-- Where a reader stands: the number of tokens it has asked for, and the tokens left. -/
structure Cursor where
  position : Nat
  rest : List String

/-- A reader of tokens. -/
abbrev Reading := StateT Cursor (Except Fault)

namespace Reading

/-- Reports a malformation at the token that was asked for last. -/
def refuse {α : Type} (why : Malformation) : Reading α := do
  throw (.malformed (← get).position why)

/-- The next token. -/
def token (what : Quantity) : Reading String := do
  let cursor ← get
  match cursor.rest with
  | [] =>
      set { cursor with position := cursor.position + 1 }
      refuse (.missing what)
  | t :: rest =>
      set { position := cursor.position + 1, rest : Cursor }
      pure t

/-- The next token, as a number. -/
def number (what : Quantity) : Reading Nat := do
  let t ← token what
  match Text.numeral? t with
  | some n => pure n
  | none => refuse (.notNumber what t)

/-- Makes room for `count` entries of `bytes` bytes each, which has to be possible with addresses
of 63 bits. -/
def reserve (bytes count : Nat) : Reading Unit :=
  if count * bytes < 2 ^ 63 then pure () else throw (.breach .overLong)

/-- What `one` reads, `count` times in order; `done` holds what was read before, last one first. -/
def manyAfter {α : Type} (one : Reading α) : Nat → List α → Reading (List α)
  | 0, done => pure done.reverse
  | count + 1, done => do manyAfter one count ((← one) :: done)

/-- What `one` reads, `count` times in order. -/
def many {α : Type} (count : Nat) (one : Reading α) : Reading (List α) := manyAfter one count []

/-- The id of a subset, counted from zero. -/
def member (subsetCount : Nat) : Reading Nat := do
  let id ← number .member
  if id = 0 ∨ subsetCount < id then refuse (.strayId id subsetCount) else pure (id - 1)

/-- The subsets that hold one element. -/
def row (subsetCount : Nat) : Reading (List Nat) := do
  let count ← number .rowLength
  reserve 8 count
  many count (member subsetCount)

/-- A whole instance. -/
def whole : Reading (Nat × Nat × List Nat × List (List Nat)) := do
  let elementCount ← number .elementCount
  let subsetCount ← number .subsetCount
  reserve 8 subsetCount
  let costs ← many subsetCount (number .cost)
  reserve 24 elementCount
  let rows ← many elementCount (row subsetCount)
  pure (elementCount, subsetCount, costs, rows)

end Reading

/-- The instance that a text describes. -/
def Instance.read (text : String) : Except Fault Instance := do
  let ((elementCount, subsetCount, costs, rows), _) ← Reading.whole.run ⟨0, Text.words text⟩
  Instance.build elementCount subsetCount costs rows

end SetCover
