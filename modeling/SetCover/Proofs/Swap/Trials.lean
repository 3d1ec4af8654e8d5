import SetCover.Proofs.Swap.Drawn
import SetCover.Proofs.Swap.Sweep

/-!
# The swaps that a move tries

Each neighbourhood tries swaps of its own: a random swap those that it draws until one of them
covers, a sweep one for each id, the best swap all there are. The three check in different ways
whether a swap covers, and a sweep does not even check a swap that is too expensive. Still each of
them carries out one of its swaps that covers, and gives the selection back unchanged only if none
of them does. None of this needs the selection to know its size.

* `Neighbourhood.trials`: the swaps that a move tries, from the words it draws.
* `Selection.ChosenFrom`, `ends_move_chosen`: what a move makes of them.
* `ends_randomSwap`, `ends_move`: a move gives a neighbour.
* `IsNeighbour.card_le`: a neighbour has no more ids.
-/

namespace SetCover

open Search

variable {inst : Instance} {current s : Selection} {tried : List (Nat × Nat)}
  {E : Fault → Session → Prop} {σ : Session}

/-! ## Trials -/

/-- One swap for each of several ids, with a replacement that is drawn. -/
def sweptSwaps (inst : Instance) : List Nat → Source → List (Nat × Nat)
  | [], _ => []
  | out :: rest, source =>
      if h : 0 < inst.subsetCount then
        let drawn := source.below inst.subsetCount h
        (out, drawn.1.val) :: sweptSwaps inst rest drawn.2
      else []

/-- The swaps that a move tries. -/
def Neighbourhood.trials (inst : Instance) (attempts : Nat) (ids : IdSet) (source : Source) :
    Neighbourhood → List (Nat × Nat)
  | random => drawnSwaps inst ids attempts source
  | sweep => sweptSwaps inst ids.toList source
  | best => allSwaps inst ids

/-- None of the swaps tried covers and `s` is `current` itself, or `s` is what one of those that
cover gives. -/
def Selection.ChosenFrom (inst : Instance) (s current : Selection) (tried : List (Nat × Nat)) :
    Prop :=
  (s = current ∧ ∀ p ∈ tried, inst.covers (swap current.ids p.1 p.2) = false) ∨
    ∃ p ∈ tried, p ∈ coveringSwaps inst current.ids ∧
      Selection.of inst (swap current.ids p.1 p.2) = .ok s

theorem Selection.chosenFrom_nil (current : Selection) : current.ChosenFrom inst current [] :=
  Or.inl ⟨rfl, fun _ hp => absurd hp List.not_mem_nil⟩

theorem Selection.ChosenFrom.isNeighbour (h : s.ChosenFrom inst current tried) :
    s.IsNeighbour inst current := by
  rcases h with ⟨hsame, _⟩ | ⟨p, _, hp, hof⟩
  · exact Or.inl hsame
  · exact Or.inr ⟨p, hp, hof⟩

/-! ## Random swaps -/

/-- The first swap drawn that covers is tried, and before it only swaps that do not. -/
theorem IsFirstSwap.chosenFrom {drawn : List DrawnSwap} {source : Source}
    (hdrawn : ∀ t ∈ drawn, t.out ∈ current.ids ∧ t.into < inst.subsetCount)
    (h : IsFirstSwap inst current drawn s source) :
    s.ChosenFrom inst current (triedSwaps inst current.ids drawn) := by
  unfold IsFirstSwap at h
  unfold triedSwaps
  split at h
  · next t hfind =>
      have hcovers : t.covers inst current.ids = true := List.find?_some hfind
      obtain ⟨hout, hinto⟩ := hdrawn t (List.mem_of_find?_eq_some hfind)
      refine Or.inr ⟨t.pair, List.mem_map_of_mem ?_, ?_, h.1⟩
      · rw [hfind]
        exact List.mem_append_right _ (List.mem_singleton_self t)
      · exact mem_coveringSwaps.mpr ⟨hout, hinto, hcovers⟩
  · next hfind =>
      refine Or.inl ⟨h, fun p hp => ?_⟩
      rw [hfind, Option.toList_none, List.append_nil] at hp
      obtain ⟨t, ht, rfl⟩ := List.mem_map.mp hp
      have hmem : t ∈ drawn := (List.takeWhile_sublist _).subset ht
      exact Bool.eq_false_iff.mpr (List.find?_eq_none.mp hfind t hmem)

theorem ends_randomSwap_chosen (attempts : Nat)
    (hids : ∀ id ∈ current.ids, id < inst.subsetCount) :
    Ends (randomSwap inst attempts current) E
      (fun s _ => s.ChosenFrom inst current (drawnSwaps inst current.ids attempts σ.source)) σ :=
  (ends_randomSwap_first attempts hids).weaken fun _ _ h =>
    h.chosenFrom fun _ => mem_swapsToCome

/-! ## Sweeps -/

theorem sweptSwaps_eq (hpos : 0 < inst.subsetCount) (outs : List Nat) (source : Source) :
    sweptSwaps inst outs source =
      outs.zip ((source.sample inst.subsetCount hpos outs.length).1.map Fin.val) := by
  induction outs generalizing source with
  | nil => rfl
  | cons out outs ih =>
      rw [sweptSwaps, dif_pos hpos]
      exact congrArg _ (ih _)

/-- The first cheapest swap that covers is one of the swaps that cover. -/
theorem Selection.chosenFrom_of_cheapestOf
    (htried : ∀ p ∈ tried, p.1 ∈ current.ids ∧ p.2 < inst.subsetCount)
    (h : cheapestOf inst current tried = .ok s) : s.ChosenFrom inst current tried := by
  unfold cheapestOf at h
  split at h
  · next p hp =>
      obtain ⟨hmem, hcovers⟩ := List.mem_filter.mp (List.argmin_mem hp)
      obtain ⟨hout, hinto⟩ := htried p hmem
      exact Or.inr ⟨p, hmem, mem_coveringSwaps.mpr ⟨hout, hinto, hcovers⟩, h⟩
  · next hp =>
      have hnone := List.argmin_eq_none.mp hp
      refine Or.inl ⟨(Except.ok.inj h).symm, fun p hmem => ?_⟩
      exact Bool.eq_false_iff.mpr (List.filter_eq_nil_iff.mp hnone p hmem)

theorem ends_sweep_chosen (hcost : current.cost = inst.weight current.ids.toList)
    (hids : ∀ id ∈ current.ids, id < inst.subsetCount) :
    Ends (sweep inst current) E
      (fun s _ => s.ChosenFrom inst current (sweptSwaps inst current.ids.toList σ.source)) σ := by
  rcases Nat.eq_zero_or_pos inst.subsetCount with hzero | hpos
  · -- without subsets there is no id either
    have hnil : current.ids.toList = [] := List.eq_nil_iff_forall_not_mem.mpr fun id hid => by
      have := hids id hid
      omega
    unfold sweep
    rw [if_pos hzero, hnil]
    exact ends_pure current.chosenFrom_nil
  · refine (ends_sweep_cheapest hpos hcost hids).weaken ?_
    rintro s _ ⟨hs, -⟩
    rw [sweptSwaps_eq hpos]
    refine Selection.chosenFrom_of_cheapestOf (fun p hp => ?_) hs
    obtain ⟨hout, hinto⟩ := List.of_mem_zip hp
    exact ⟨hout, Source.lt_of_mem_sample hinto⟩

/-! ## Moves -/

theorem ends_bestSwap_chosen (hcost : current.cost = inst.weight current.ids.toList)
    (hids : ∀ id ∈ current.ids, id < inst.subsetCount)
    (hcovers : inst.covers current.ids = true) :
    Ends (Search.ofExcept (bestSwap inst current)) E
      (fun s _ => s.ChosenFrom inst current (allSwaps inst current.ids)) σ := by
  have hall : ∀ p ∈ allSwaps inst current.ids, p.1 ∈ current.ids ∧ p.2 < inst.subsetCount :=
    fun p hp => mem_allSwaps.mp hp
  obtain ⟨s, hs⟩ := exists_cheapestOf hids fun p hp => (hall p hp).2
  have hbest : bestSwap inst current = .ok s := (bestSwap_eq hcost hids hcovers).trans hs
  exact ends_ofExcept_ok hbest (Selection.chosenFrom_of_cheapestOf hall hs)

/-- A move from a selection that covers, with its own cost, does not fail, and gives what one of the
swaps gives that it tries. -/
theorem ends_move_chosen (hood : Neighbourhood) (attempts : Nat)
    (hcost : current.cost = inst.weight current.ids.toList)
    (hids : ∀ id ∈ current.ids, id < inst.subsetCount)
    (hcovers : inst.covers current.ids = true) :
    Ends (hood.move inst attempts current) E (fun s _ =>
      s.ChosenFrom inst current (hood.trials inst attempts current.ids σ.source)) σ := by
  cases hood with
  | random => exact ends_randomSwap_chosen attempts hids
  | sweep => exact ends_sweep_chosen hcost hids
  | best => exact ends_bestSwap_chosen hcost hids hcovers

theorem ends_randomSwap (attempts : Nat) (hids : ∀ id ∈ current.ids, id < inst.subsetCount) :
    Ends (randomSwap inst attempts current) E (fun s _ => s.IsNeighbour inst current) σ :=
  (ends_randomSwap_chosen attempts hids).weaken fun _ _ h => h.isNeighbour

theorem ends_move (hood : Neighbourhood) (attempts : Nat) (hcurrent : current.IsCover inst) :
    Ends (hood.move inst attempts current) E (fun s _ => s.IsNeighbour inst current ∧
      (hood = .best → s.cost ≤ current.cost ∧
        (current.ids = .empty ∧ s = current ∨ s.IsCheapestSwapOf inst current))) σ := by
  have hids := hcurrent.consistent.ids_lt
  cases hood with
  | random => exact (ends_randomSwap attempts hids).weaken fun s _ h => ⟨h, by simp⟩
  | sweep =>
      exact (ends_sweep_chosen hcurrent.consistent.cost_eq hids).weaken fun s _ h =>
        ⟨h.isNeighbour, by simp⟩
  | best =>
      obtain ⟨s, hs, hle, hbest⟩ := bestSwap_spec hcurrent
      refine ends_ofExcept_ok hs ⟨?_, fun _ => ⟨hle, hbest⟩⟩
      rcases hbest with ⟨_, rfl⟩ | hcheapest
      · exact Or.inl rfl
      · exact Or.inr hcheapest.1

/-! ## Sizes -/

theorem card_swap_le {ids : IdSet} {out : Nat} (hout : out ∈ ids) (into : Nat) :
    (swap ids out into).card ≤ ids.card :=
  Nat.le_trans (IdSet.card_insert_le _ _) (Nat.le_of_eq (IdSet.card_erase hout))

theorem Selection.IsNeighbour.card_le (h : s.IsNeighbour inst current) :
    s.ids.card ≤ current.ids.card := by
  rcases h with rfl | ⟨p, hp, hof⟩
  · exact Nat.le_refl _
  · rw [(Selection.of_spec hof).2]
    exact card_swap_le (mem_coveringSwaps.mp hp).1 p.2

end SetCover
