import SetCover.Swap.Basic
import SetCover.Search.Basic

/-!
# Random swaps

A random swap exchanges a random selected subset for a random subset. Swaps are drawn until one
gives a cover.

* `drawMember`: a random member of a set.
* `randomSwap`: the first swap drawn that gives a cover, among a number of attempts.
-/

namespace SetCover

/-- A random member; a set without members gives none and takes no word. -/
def drawMember (ids : IdSet) : Search (Option Nat) :=
  if ids.isEmpty then pure none
  else do
    let i ← Search.below ids.toList.length
    pure (some ids.toList[i])

/-- Draws swaps until one gives a cover, `left` times at most; then the selection stays as it is
and the journal says that all `attempts` failed. -/
def randomSwapFrom (inst : Instance) (attempts : Nat) (current : Selection) : Nat → Search Selection
  | 0 => do
      Search.note (.swapsExhausted attempts)
      pure current
  | left + 1 => do
      match ← drawMember current.ids with
      | none => pure current
      | some out =>
          let into ← Search.below inst.subsetCount
          let ids := swap current.ids out into
          if inst.covers ids then Search.ofExcept (Selection.of inst ids)
          else randomSwapFrom inst attempts current left

/-- A selection one random swap away that is a cover; the selection itself if none is found in
`attempts` attempts, if it is empty, or if there are no subsets. -/
def randomSwap (inst : Instance) (attempts : Nat) (current : Selection) : Search Selection :=
  if inst.subsetCount = 0 then pure current else randomSwapFrom inst attempts current attempts

end SetCover
