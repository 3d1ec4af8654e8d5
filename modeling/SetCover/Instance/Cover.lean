import SetCover.Instance.Basic

/-!
# Costs and covers

What a choice of subsets costs and what it covers. An operation that is handed ids from outside
checks them and answers with a breach where an id is unknown; beside it stands the total function
that it computes on known ids.

* `Instance.Covers`: the plain definition of a cover, and `covers_iff` for the check of it.
* `Instance.weight` and `weightOf`: total cost, without and with a check of the ids.
* `Instance.orphans`: the elements that a choice covers through one subset only.
-/

namespace SetCover.Instance

/-! ## Cost -/

/-- The cost of a subset; zero for an unknown id. -/
def costAt (inst : Instance) (s : Nat) : Nat := inst.costs[s]?.getD 0

/-- The sum of the costs, where an id that occurs twice counts twice. -/
def weight (inst : Instance) (ids : List Nat) : Nat := (ids.map inst.costAt).sum

/-- Whether every id names a subset. -/
def knows (inst : Instance) (ids : List Nat) : Bool := ids.all (· < inst.subsetCount)

/-- The sum of the costs; all ids have to be known. -/
def weightOf (inst : Instance) (ids : List Nat) : Except Fault Nat :=
  if inst.knows ids then .ok (inst.weight ids) else .error (.breach .unknownSubset)

/-! ## Covers -/

/-- The subsets that hold an element; none for an unknown element. -/
def holdersOf (inst : Instance) (e : Nat) : IdSet := rowAt inst.holders e

/-- The elements of a subset; none for an unknown subset. -/
def contentsOf (inst : Instance) (s : Nat) : IdSet := rowAt inst.contents s

/-- Some chosen subset holds the element. -/
def Holds (inst : Instance) (chosen : Nat → Prop) (e : Nat) : Prop :=
  ∃ s, s ∈ inst.holdersOf e ∧ chosen s

/-- The chosen subsets hold every element. -/
def Covers (inst : Instance) (chosen : Nat → Prop) : Prop :=
  ∀ e, e < inst.elementCount → inst.Holds chosen e

/-- Whether the subsets that `chosen` accepts hold every element. -/
def coveredBy (inst : Instance) (chosen : Nat → Bool) : Bool :=
  inst.holders.all fun row => row.toList.any chosen

/-- Whether the subsets of a set hold every element. -/
def covers (inst : Instance) (ids : IdSet) : Bool := inst.coveredBy ids.contains

theorem coveredBy_iff {inst : Instance} {chosen : Nat → Bool} :
    inst.coveredBy chosen = true ↔ inst.Covers (fun s => chosen s = true) := by
  simp only [coveredBy, Array.all_eq_true, List.any_eq_true, Covers, Holds, holdersOf, rowAt,
    elementCount]
  constructor
  · intro h e he
    obtain ⟨s, hs, hc⟩ := h e he
    exact ⟨s, by simpa [he, IdSet.mem_def] using hs, hc⟩
  · intro h e he
    obtain ⟨s, hs, hc⟩ := h e he
    exact ⟨s, by simpa [he, IdSet.mem_def] using hs, hc⟩

theorem covers_iff {inst : Instance} {ids : IdSet} :
    inst.covers ids = true ↔ inst.Covers (· ∈ ids) := by
  simp [covers, coveredBy_iff]

theorem mem_holdersOf_lt {inst : Instance} {e s : Nat} (h : s ∈ inst.holdersOf e) :
    s < inst.subsetCount := by
  unfold holdersOf rowAt at h
  cases hrow : inst.holders[e]? with
  | none => simp [hrow] at h
  | some row => exact inst.holders_lt row (Array.mem_of_getElem? hrow) s (by simpa [hrow] using h)

/-- The two relations of an instance say the same. -/
theorem mem_contentsOf {inst : Instance} {e s : Nat} :
    e ∈ inst.contentsOf s ↔ s ∈ inst.holdersOf e := by
  by_cases hs : s < inst.subsetCount
  · rw [contentsOf, inst.contents_eq]
    exact mem_row_invert hs
  · constructor
    · intro h
      have hsize : inst.contents[s]? = none := by
        rw [Array.getElem?_eq_none_iff, inst.contents_eq, size_invert]
        exact Nat.le_of_not_lt hs
      simp [contentsOf, rowAt, hsize] at h
    · intro h
      exact absurd (mem_holdersOf_lt h) hs

/-! ## Single subsets -/

/-- The elements that only `s` covers among `ids`, smallest first. -/
def orphans (inst : Instance) (ids : IdSet) (s : Nat) : List Nat :=
  (inst.contentsOf s).toList.filter fun e =>
    !(inst.holdersOf e).toList.any fun t => t != s && ids.contains t

/-- The elements that only `s` covers among `ids`; `s` has to be known. -/
def orphansOf (inst : Instance) (ids : IdSet) (s : Nat) : Except Fault (List Nat) :=
  if s < inst.subsetCount then .ok (inst.orphans ids s) else .error (.breach .unknownSubset)

/-- Whether a subset holds all of the elements. The elements are looked at in order, up to the
first that the subset does not hold, and have to be known as far as they are looked at. -/
def holdsAll (inst : Instance) (s : Nat) : List Nat → Except Fault Bool
  | [] => .ok true
  | e :: rest =>
      if e < inst.elementCount then
        if (inst.holdersOf e).contains s then inst.holdsAll s rest else .ok false
      else .error (.breach .unknownElement)

/-! ## Coverable instances -/

/-- The first element that no subset holds. -/
def bareElement? (inst : Instance) : Option Nat := inst.holders.findIdx? (·.isEmpty)

/-- Refuses an instance that has no cover, and names the first element that no subset holds. -/
def requireCoverable (inst : Instance) : Except Fault Unit :=
  match inst.bareElement? with
  | some e => .error (.uncoverable e)
  | none => .ok ()

end SetCover.Instance
