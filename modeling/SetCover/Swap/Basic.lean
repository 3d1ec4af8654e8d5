import SetCover.Selection

/-!
# Swaps

A swap takes one subset out of a selection and puts one in. The subset put in may be selected
already, and then the swap only removes; or it may be the one taken out, and then it changes
nothing.

* `swap`: the ids after a swap.
* `costAfter`: the cost after a swap, from the cost before it.
* `Trial.isBeaten`, `settle`: how the cheapest of several swaps is kept and carried out.
-/

namespace SetCover

/-- The ids after `out` is taken out and `into` is put in. -/
def swap (ids : IdSet) (out into : Nat) : IdSet := (ids.erase out).insert into

@[simp] theorem mem_swap {ids : IdSet} {out into a : Nat} :
    a ∈ swap ids out into ↔ a = into ∨ a ∈ ids ∧ a ≠ out := by
  simp [swap]

/-- The cost after a swap, computed from the stored cost. Ids are looked up only as far as the
swap changes the cost. -/
def costAfter (inst : Instance) (current : Selection) (out into : Nat) : Except Fault Nat :=
  if out = into then .ok current.cost
  else if inst.subsetCount ≤ out then .error (.breach .unknownSubset)
  else if current.cost < inst.costAt out then .error (.breach .costTooSmall)
  else if current.ids.contains into then .ok (current.cost - inst.costAt out)
  else if inst.subsetCount ≤ into then .error (.breach .unknownSubset)
  else .ok (current.cost - inst.costAt out + inst.costAt into)

/-- A swap that gives a cover, and the cost after it. -/
structure Trial where
  cost : Nat
  out : Nat
  into : Nat
  deriving DecidableEq

/-- Whether there is a swap that costs no more than `cost`. -/
def Trial.isBeaten (best : Option Trial) (cost : Nat) : Bool := best.any (·.cost ≤ cost)

/-- Carries out the best swap, if one was found. -/
def settle (inst : Instance) (current : Selection) : Option Trial → Except Fault Selection
  | some t => Selection.of inst (swap current.ids t.out t.into)
  | none => .ok current

end SetCover
