import SetCover.Swap.Basic
import SetCover.Search.Basic

/-!
# Sweeps

A sweep draws one replacement for each selected subset in turn, and carries out the cheapest of
these swaps that gives a cover, the first of them where costs are equal.

* `sweepStep`: the swap of one selected subset.
* `sweep`: the whole sweep.
-/

namespace SetCover

/-- Draws a replacement for `out`, and keeps the swap if it is cheaper than the best so far and
gives a cover. The word is drawn in any case. -/
def sweepStep (inst : Instance) (current : Selection) (best : Option Trial) (out : Nat) :
    Search (Option Trial) := do
  let into ← Search.below inst.subsetCount
  let cost ← costAfter inst current out into
  if Trial.isBeaten best cost then pure best
  else if inst.covers (swap current.ids out into) then pure (some ⟨cost, out, into⟩)
  else pure best

/-- The selection after the best swap of a sweep; the selection itself if no swap of the sweep
gives a cover. -/
def sweep (inst : Instance) (current : Selection) : Search Selection := do
  if inst.subsetCount = 0 then pure current
  else
    let best ← current.ids.toList.foldlM (sweepStep inst current) none
    settle inst current best

end SetCover
