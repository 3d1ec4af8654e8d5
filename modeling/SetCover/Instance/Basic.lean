import SetCover.Ids
import SetCover.Fault

/-!
# Instances of the set covering problem

An instance has elements and subsets, both counted from zero. `holders` says for each element
which subsets hold it, `contents` says for each subset which elements it holds, and each subset
has a cost. The rows of `holders` are sets, so an instance depends on the rows that it is built
from only as sets.

* `Instance.build`: an instance from its data, which may be refused.
* `mem_row_invert`: the inverse of a relation is the relation read the other way round.
* `firstStray?_eq_none_iff`: no stray entry is found exactly when every entry is in range.
-/

namespace SetCover

/-! ## The inverse of a relation -/

/-- The row of index `i`, without members where there is no such row. -/
def rowAt (rows : Array IdSet) (i : Nat) : IdSet := rows[i]?.getD .empty

/-- Adds `e` to every row that `ids` names. -/
def addToRows (e : Nat) (ids : List Nat) (rows : Array IdSet) : Array IdSet :=
  ids.foldr (fun s rows => rows.modify s (·.insert e)) rows

/-- The relation of `rows` read the other way round, with `n` rows: row `s` has the indices of the
rows that have `s`. Entries from `n` on are dropped. -/
def invert (n : Nat) (rows : Array IdSet) : Array IdSet :=
  rows.toList.zipIdx.foldr (fun p columns => addToRows p.2 p.1.toList columns)
    (Array.replicate n .empty)

@[simp] theorem size_addToRows (e : Nat) (ids : List Nat) (rows : Array IdSet) :
    (addToRows e ids rows).size = rows.size := by
  induction ids with
  | nil => rfl
  | cons s ids ih => simpa [addToRows] using ih

theorem mem_rowAt_addToRows {e x t : Nat} {ids : List Nat} {rows : Array IdSet}
    (ht : t < rows.size) :
    x ∈ rowAt (addToRows e ids rows) t ↔ x ∈ rowAt rows t ∨ x = e ∧ t ∈ ids := by
  induction ids with
  | nil => simp [addToRows]
  | cons s ids ih =>
      have hs : t < (addToRows e ids rows).size := by simpa using ht
      have hstep : addToRows e (s :: ids) rows = (addToRows e ids rows).modify s (·.insert e) := rfl
      rw [hstep]
      by_cases hst : s = t
      · subst hst
        have hget : rowAt ((addToRows e ids rows).modify s (·.insert e)) s =
            (rowAt (addToRows e ids rows) s).insert e := by
          simp only [rowAt, Array.getElem?_modify, Array.getElem?_eq_getElem hs]; rfl
        rw [hget, IdSet.mem_insert, ih]
        constructor
        · rintro (h | h | h)
          · exact Or.inr ⟨h, by simp⟩
          · exact Or.inl h
          · exact Or.inr ⟨h.1, by simp⟩
        · rintro (h | h)
          · exact Or.inr (Or.inl h)
          · exact Or.inl h.1
      · have hget : rowAt ((addToRows e ids rows).modify s (·.insert e)) t =
            rowAt (addToRows e ids rows) t := by
          simp [rowAt, Array.getElem?_modify, hst]
        rw [hget, ih]
        simp [Ne.symm hst]

theorem size_foldr_addToRows (pairs : List (IdSet × Nat)) (columns : Array IdSet) :
    (pairs.foldr (fun p columns => addToRows p.2 p.1.toList columns) columns).size =
      columns.size := by
  induction pairs with
  | nil => rfl
  | cons p pairs ih => simpa using ih

@[simp] theorem size_invert (n : Nat) (rows : Array IdSet) : (invert n rows).size = n := by
  simp [invert, size_foldr_addToRows]

/-- The inverse of a relation is the relation read the other way round. -/
theorem mem_row_invert {n e s : Nat} {rows : Array IdSet} (hs : s < n) :
    e ∈ rowAt (invert n rows) s ↔ s ∈ rowAt rows e := by
  have key : ∀ pairs : List (IdSet × Nat),
      e ∈ rowAt (pairs.foldr (fun p columns => addToRows p.2 p.1.toList columns)
        (Array.replicate n .empty)) s ↔ ∃ row, (row, e) ∈ pairs ∧ s ∈ row := by
    intro pairs
    induction pairs with
    | nil => simp [rowAt, hs]
    | cons p pairs ih =>
        rw [List.foldr_cons, mem_rowAt_addToRows (by simpa [size_foldr_addToRows] using hs), ih]
        constructor
        · rintro (⟨row, h, hrow⟩ | ⟨rfl, h⟩)
          · exact ⟨row, List.mem_cons_of_mem _ h, hrow⟩
          · exact ⟨p.1, by simp, h⟩
        · rintro ⟨row, h, hrow⟩
          rcases List.mem_cons.1 h with h | h
          · subst h
            exact Or.inr ⟨rfl, hrow⟩
          · exact Or.inl ⟨row, h, hrow⟩
  rw [invert, key]
  simp only [List.mk_mem_zipIdx_iff_getElem?, Array.getElem?_toList, rowAt]
  constructor
  · rintro ⟨row, h, hrow⟩
    simpa [h] using hrow
  · intro h
    cases hrow : rows[e]? with
    | none => simp [hrow] at h
    | some row => exact ⟨row, rfl, by simpa [hrow] using h⟩

/-! ## Instances -/

/-- An instance of the set covering problem. -/
structure Instance where
  /-- What reports call the instance. -/
  name : String
  /-- The cost of each subset. -/
  costs : Array Nat
  /-- For each element the subsets that hold it. -/
  holders : Array IdSet
  /-- For each subset the elements that it holds. -/
  contents : Array IdSet
  /-- Rows name existing subsets only. -/
  holders_lt : ∀ row ∈ holders, ∀ s ∈ row, s < costs.size
  /-- The two relations are each other's inverse. -/
  contents_eq : contents = invert costs.size holders

namespace Instance

/-- Number of elements. -/
def elementCount (inst : Instance) : Nat := inst.holders.size

/-- Number of subsets. -/
def subsetCount (inst : Instance) : Nat := inst.costs.size

/-- The first element whose row has an id from `n` on, with the smallest such id of the row. -/
def firstStray? (n : Nat) (rows : List IdSet) : Option (Nat × Nat) :=
  rows.zipIdx.findSome? fun p => (p.1.toList.find? (n ≤ ·)).map fun s => (p.2, s)

theorem firstStray?_eq_none_iff {n : Nat} {rows : List IdSet} :
    firstStray? n rows = none ↔ ∀ row ∈ rows, ∀ s ∈ row, s < n := by
  simp only [firstStray?, List.findSome?_eq_none_iff, Option.map_eq_none_iff,
    List.find?_eq_none, decide_eq_true_eq, Nat.not_le]
  constructor
  · intro h row hrow s hs
    obtain ⟨e, he⟩ := List.mem_iff_getElem?.1 hrow
    exact h (row, e) (List.mk_mem_zipIdx_iff_getElem?.2 he) s hs
  · intro h p hp s hs
    exact h p.1 (List.fst_mem_of_mem_zipIdx hp) s hs

/-- An instance from the declared counts, the costs and, for each element, the ids of the subsets
that hold it, in any order and with repetitions. Refused when a count is wrong or an id is out of
range. -/
def build (elementCount subsetCount : Nat) (costs : List Nat) (rows : List (List Nat)) :
    Except Fault Instance :=
  if costs.length ≠ subsetCount then
    .error (.invalid (.costCount subsetCount costs.length))
  else if rows.length ≠ elementCount then
    .error (.invalid (.rowCount elementCount rows.length))
  else
    let sets := rows.map IdSet.ofList
    match h : firstStray? costs.length sets with
    | some (element, subset) =>
        .error (.invalid (.strayMember element subset subsetCount))
    | none =>
        .ok
          { name := ""
            costs := costs.toArray
            holders := sets.toArray
            contents := invert costs.length sets.toArray
            holders_lt := by simpa using firstStray?_eq_none_iff.1 h
            contents_eq := by simp }

/-- The same instance under another name. -/
def named (inst : Instance) (name : String) : Instance := { inst with name }

end Instance

end SetCover
