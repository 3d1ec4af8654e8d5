import SetCover.Instance.Cover

/-!
# Selections

A selection is a choice of subsets with its total cost and its size. The two numbers are stored,
and only a selection made by `Selection.of` is bound to have the right ones.

* `Selection.of`: the selection of known ids, with its cost and size.
* `Selection.delta`: the difference of two costs, taken of their signed readings.
* `Selection.summary`, `Selection.details`: the two texts of a selection.
-/

namespace SetCover

/-- The number that 64 bits stand for when they are read with a sign. -/
def signed (word : Nat) : Int := (word : Int).bmod (2 ^ 64)

/-- A choice of subsets. -/
structure Selection where
  /-- The sum of the costs of the chosen subsets. -/
  cost : Nat
  /-- The number of chosen subsets. -/
  size : Nat
  /-- The chosen subsets. -/
  ids : IdSet
  deriving DecidableEq, Inhabited

namespace Selection

/-- The selection of nothing. -/
def empty : Selection := ⟨0, 0, .empty⟩

/-- The selection of known ids. -/
def of (inst : Instance) (ids : IdSet) : Except Fault Selection := do
  pure ⟨← inst.weightOf ids.toList, ids.card, ids⟩

/-- Cost and size are those of the ids, and all ids are known. -/
structure Consistent (inst : Instance) (s : Selection) : Prop where
  /-- The stored cost is the sum of the costs. -/
  cost_eq : s.cost = inst.weight s.ids.toList
  /-- The stored size is the number of ids. -/
  size_eq : s.size = s.ids.card
  /-- The ids name subsets. -/
  ids_lt : ∀ id ∈ s.ids, id < inst.subsetCount

/-- How much more `s` costs than `t`, where both costs are read with a sign. -/
def delta (s t : Selection) : Int := signed s.cost - signed t.cost

/-- Cost, size and ids in one list, which is made with room for as many ids of 8 bytes as the
stored size says. -/
def flatten (s : Selection) : Except Fault (List Nat) :=
  if (s.size + 2) * 8 < 2 ^ 63 then .ok (s.cost :: s.size :: s.ids.toList)
  else .error (.breach .overLong)

/-- The selection in one line, with ids that count from one. -/
def summary (s : Selection) : String :=
  let ids := " ".intercalate (s.ids.toList.map fun id => toString (id + 1))
  s!"cost: {s.cost} subsetCount: {s.size} subsetIDs: {ids}"

/-- The selection in four lines, with ids that count from zero. -/
def details (s : Selection) : String :=
  let ids := s.ids.render ", "
  s!"Solution:\n  Cost: {s.cost}\n  Subsets: {s.size}\n  IDs: [{ids}]\n"

end Selection

end SetCover
