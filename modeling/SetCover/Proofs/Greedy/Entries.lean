import SetCover.Heuristic.Multistart
import SetCover.Proofs.Search.Writing

/-!
# What constructions write down

A greedy construction writes down the subsets that it draws, and several constructions also which
of them is the best so far.

* `IsGreedyEntry`: such an entry.
* `Greedy.writes_construct`, `writes_multistart`: constructions write nothing else.
-/

namespace SetCover

open Search

/-- An entry about a subset that is drawn, or about the best construction so far. -/
def IsGreedyEntry : Event → Prop
  | .subsetPicked .. | .subsetPassedOver _ | .constructionImproved .. => True
  | _ => False

variable {inst : Instance}

namespace Greedy

theorem writes_grow (size : Nat) (pool : List Offer) (left : List Nat) (kept : IdSet) :
    Writes (grow inst size pool left kept) IsGreedyEntry := by
  -- every step takes an offer out of the pool
  induction hn : pool.length using Nat.strongRecOn generalizing pool left kept with
  | ind n ih =>
      subst hn
      cases left with
      | nil =>
          rw [grow]
          exact writes_pure kept
      | cons first more =>
          rw [grow]
          refine writes_ite (writes_throw _) (writes_bind (writes_below _) fun i => ?_)
          refine writes_bind (writes_note ?_) fun _ => ih _ (length_erase_shortlist_lt i) _ _ _ rfl
          split <;> exact trivial

theorem writes_price (amount cost : Int) : Writes (price amount cost) IsGreedyEntry := by
  unfold price
  refine writes_ite (writes_pure cost) (writes_ite ?_ (writes_throw _))
  exact writes_bind (writes_below _) fun n => writes_pure _

theorem writes_construct (size noise : Nat) :
    Writes (construct inst size noise) IsGreedyEntry := by
  unfold construct
  refine writes_ite (writes_throw _) (writes_bind (writes_ofExcept _) fun _ => ?_)
  refine writes_bind (writes_mapM _ _ fun cost => writes_price _ _) fun prices => ?_
  exact writes_grow size _ _ _

end Greedy

theorem writes_multistartFrom (size noise left done : Nat) (best : Option Selection) :
    Writes (multistartFrom inst size noise left done best) IsGreedyEntry := by
  induction left generalizing done best with
  | zero => exact writes_pure best
  | succ left ih =>
      rw [multistartFrom]
      refine writes_bind ?_ fun s => writes_ite (ih _ _) ?_
      · exact writes_bind (Greedy.writes_construct size noise) fun ids => writes_ofExcept _
      · exact writes_bind (writes_note trivial) fun _ => ih _ _

theorem writes_multistart (count size noise : Nat) :
    Writes (multistart inst count size noise) IsGreedyEntry := by
  refine writes_bind (writes_multistartFrom size noise count 0 none) ?_
  rintro (_ | best)
  · exact writes_throw _
  · exact writes_pure best

end SetCover
