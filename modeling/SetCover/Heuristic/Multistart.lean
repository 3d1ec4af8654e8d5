import SetCover.Greedy

/-!
# Multistart

The best of several greedy constructions, each made with random words of its own and, where there
is noise, with prices of its own. What counts is the true cost.

* `constructed`: one construction as a selection.
* `multistart`: the cheapest of several, the first of them where costs are equal.
* `cheapestFirst`: the construction that always takes the cheapest offer.
-/

namespace SetCover

/-- One greedy construction. -/
def constructed (inst : Instance) (size noise : Nat) : Search Selection := do
  let ids ← Greedy.construct inst size noise
  Selection.of inst ids

/-- Makes `left` more constructions after `done` of them, and keeps the best. -/
def multistartFrom (inst : Instance) (size noise : Nat) :
    Nat → Nat → Option Selection → Search (Option Selection)
  | 0, _, best => pure best
  | left + 1, done, best => do
      let s ← constructed inst size noise
      if best.any (·.cost ≤ s.cost) then multistartFrom inst size noise left (done + 1) best
      else
        Search.note (.constructionImproved done s.cost)
        multistartFrom inst size noise left (done + 1) (some s)

/-- The cheapest of `count` constructions, each from shortlists of the given size. -/
def multistart (inst : Instance) (count size noise : Nat) : Search Selection := do
  match ← multistartFrom inst size noise count 0 none with
  | some best => pure best
  | none => throw (.invalid .noConstruction)

/-- The construction that always takes the cheapest offer. -/
def cheapestFirst (inst : Instance) : Search Selection := multistart inst 1 1 0

end SetCover
