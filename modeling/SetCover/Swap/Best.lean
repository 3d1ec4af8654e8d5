import SetCover.Swap.Basic

/-!
# The best swap

All swaps are tried, selected subsets in ascending order and for each of them all replacements in
ascending order. The cheapest swap that gives a cover is carried out, the first of them where costs
are equal. After taking a subset out, only the elements that it alone covered need to be looked at.

* `bestInto`: the best swap among those that take out one subset.
* `bestSwap`: the best of all swaps.
-/

namespace SetCover

/-- Tries one swap: it is kept if it is cheaper than the best so far and its replacement holds the
elements that lost their cover. -/
def bestStep (inst : Instance) (current : Selection) (out : Nat) (lost : List Nat)
    (best : Option Trial) (into : Nat) : Except Fault (Option Trial) := do
  let cost ← costAfter inst current out into
  if Trial.isBeaten best cost then pure best
  else if ← inst.holdsAll into lost then pure (some ⟨cost, out, into⟩)
  else pure best

/-- Tries all swaps that take out `out`. -/
def bestInto (inst : Instance) (current : Selection) (best : Option Trial) (out : Nat) :
    Except Fault (Option Trial) := do
  let lost ← inst.orphansOf current.ids out
  (List.range inst.subsetCount).foldlM (bestStep inst current out lost) best

/-- The selection after the best swap; the selection itself if no swap gives a cover. -/
def bestSwap (inst : Instance) (current : Selection) : Except Fault Selection := do
  let best ← current.ids.toList.foldlM (bestInto inst current) none
  settle inst current best

end SetCover
