import SetCover.Proofs.Instance.Cover
import SetCover.Proofs.Search.Writing
import SetCover.Proofs.Swap.Exhaustive
import SetCover.Swap.Neighbourhood

/-!
# Neighbours of a selection

A neighbour is the selection itself or the selection after one swap that covers, so moves to
neighbours lead from covers to covers.

* `IsNeighbour.isCover`: a neighbour of a cover is a cover.
* `IsNeighbour.oneSwapApart`: a neighbour has at most one id less and one more.
* `bestSwap_spec`: the best swap gives the cheapest neighbour.
* `writes_move`: what a move writes down.
-/

namespace SetCover

open Search

/-- The selection after a swap of `current` that covers. -/
def Selection.IsSwapOf (inst : Instance) (s current : Selection) : Prop :=
  ∃ p ∈ coveringSwaps inst current.ids, Selection.of inst (swap current.ids p.1 p.2) = .ok s

/-- `current` itself or the selection after a swap of it that covers. -/
def Selection.IsNeighbour (inst : Instance) (s current : Selection) : Prop :=
  s = current ∨ s.IsSwapOf inst current

variable {inst : Instance} {current s : Selection} {E : Fault → Session → Prop} {σ : Session}

theorem Selection.IsSwapOf.isCover (h : s.IsSwapOf inst current) : s.IsCover inst := by
  obtain ⟨p, hp, hof⟩ := h
  obtain ⟨hconsistent, hids⟩ := Selection.of_spec hof
  refine ⟨hconsistent, ?_⟩
  rw [hids]
  exact (mem_coveringSwaps.mp hp).2.2

theorem Selection.IsNeighbour.isCover (h : s.IsNeighbour inst current)
    (hcurrent : current.IsCover inst) : s.IsCover inst := by
  rcases h with rfl | hswap
  · exact hcurrent
  · exact hswap.isCover

/-- At most one id goes out, and at most one comes in. -/
def IdSet.OneSwapApart (ids ids' : IdSet) : Prop :=
  (∀ a ∈ ids, ∀ b ∈ ids, a ∉ ids' → b ∉ ids' → a = b) ∧
    ∀ a ∈ ids', ∀ b ∈ ids', a ∉ ids → b ∉ ids → a = b

theorem oneSwapApart_swap (ids : IdSet) (out into : Nat) :
    ids.OneSwapApart (swap ids out into) := by
  have hlost : ∀ a ∈ ids, a ∉ swap ids out into → a = out := by
    intro a ha hnot
    by_contra hne
    exact hnot (mem_swap.mpr (Or.inr ⟨ha, hne⟩))
  have hgained : ∀ a ∈ swap ids out into, a ∉ ids → a = into := by
    intro a ha hnot
    rcases mem_swap.mp ha with h | ⟨h, _⟩
    · exact h
    · exact absurd h hnot
  constructor
  · intro a ha b hb hna hnb
    rw [hlost a ha hna, hlost b hb hnb]
  · intro a ha b hb hna hnb
    rw [hgained a ha hna, hgained b hb hnb]

theorem Selection.IsNeighbour.oneSwapApart (h : s.IsNeighbour inst current) :
    current.ids.OneSwapApart s.ids := by
  rcases h with rfl | ⟨p, _, hof⟩
  · exact ⟨fun a ha _ _ hna => absurd ha hna, fun a ha _ _ hna => absurd ha hna⟩
  · rw [(Selection.of_spec hof).2]
    exact oneSwapApart_swap current.ids p.1 p.2

theorem isSwapOf_of_mem {p : Nat × Nat} (hids : ∀ id ∈ current.ids, id < inst.subsetCount)
    (hp : p ∈ coveringSwaps inst current.ids) :
    ∃ s, Selection.of inst (swap current.ids p.1 p.2) = .ok s ∧ s.IsSwapOf inst current :=
  have hof := Selection.of_eq_ok (swap_lt hids (mem_coveringSwaps.mp hp).2.1)
  ⟨_, hof, p, hp, hof⟩

/-! ## Cheapest swaps -/

/-- No swap that covers is cheaper. -/
def Selection.IsCheapestSwapOf (inst : Instance) (s current : Selection) : Prop :=
  s.IsSwapOf inst current ∧
    ∀ q ∈ coveringSwaps inst current.ids, s.cost ≤ swapWeight inst current.ids q

theorem bestSwap_spec (hcurrent : current.IsCover inst) :
    ∃ s, bestSwap inst current = .ok s ∧ s.cost ≤ current.cost ∧
      (current.ids = .empty ∧ s = current ∨ s.IsCheapestSwapOf inst current) := by
  obtain ⟨⟨hcost, hsize, hids⟩, hcovers⟩ := hcurrent
  rw [bestSwap_eq hcost hids hcovers]
  rcases exhaustiveSwap_spec hids hcovers with ⟨hempty, hsame⟩ | ⟨p, hp, hfound, hmin, hle⟩
  · exact ⟨current, hsame, Nat.le_refl _, Or.inl ⟨hempty, rfl⟩⟩
  · refine ⟨_, hfound, by rw [hcost]; exact hle, Or.inr ⟨⟨p, hp, ?_⟩, hmin⟩⟩
    exact Selection.of_eq_ok (swap_lt hids (mem_coveringSwaps.mp hp).2.1)

/-! ## Journals -/

/-- The entry that no random swap gave a cover. -/
def IsExhaustion (event : Event) : Prop := ∃ attempts, event = .swapsExhausted attempts

theorem writes_drawMember (ids : IdSet) : Writes (drawMember ids) noEvent := by
  unfold drawMember
  split
  · exact writes_pure _
  · exact writes_bind (writes_below _) fun _ => writes_pure _

theorem writes_randomSwapFrom (attempts left : Nat) :
    Writes (randomSwapFrom inst attempts current left) IsExhaustion := by
  induction left with
  | zero => exact writes_bind (writes_note ⟨attempts, rfl⟩) fun _ => writes_pure _
  | succ left ih =>
      rw [randomSwapFrom]
      refine writes_bind ((writes_drawMember _).mono fun _ h => h.elim) ?_
      rintro (_ | out)
      · exact writes_pure _
      · refine writes_bind (writes_below _) fun into => ?_
        dsimp only
        split
        · exact writes_ofExcept _
        · exact ih

theorem writes_randomSwap (attempts : Nat) :
    Writes (randomSwap inst attempts current) IsExhaustion := by
  unfold randomSwap
  split
  · exact writes_pure _
  · exact writes_randomSwapFrom attempts attempts

theorem writes_sweep : Writes (sweep inst current) noEvent := by
  unfold sweep
  split
  · exact writes_pure _
  · refine writes_bind (writes_foldlM _ _ (fun best out => ?_) none) fun _ => writes_ofExcept _
    unfold sweepStep
    refine writes_bind (writes_below _) fun into => writes_bind (writes_ofExcept _) fun cost => ?_
    split
    · exact writes_pure _
    · split
      · exact writes_pure _
      · exact writes_pure _

/-- A move writes down no more than that its random swaps failed. -/
theorem writes_move (hood : Neighbourhood) (attempts : Nat) :
    Writes (hood.move inst attempts current) IsExhaustion := by
  cases hood with
  | random => exact writes_randomSwap attempts
  | sweep => exact writes_sweep.mono fun _ h => h.elim
  | best => exact writes_ofExcept _

end SetCover
