import SetCover.Proofs.Heuristic.Trace
import SetCover.Proofs.Swap.Trials

/-!
# Moves one after another

A tour moves on and on, each time in a neighbourhood of its own. It starts from a cover of known
ids with its own cost, and whatever the neighbourhoods and the words are, it never comes to anything
else. Its cost is at most that of all subsets, so it fits in 64 bits where that does. The size that
is stored with the start may be a wrong one. A move that gives the selection back gives it back as
it is, so a wrong size lasts until the first swap.

* `Selection.IsPriced`: what is known of the start, and kept by all moves.
* `tour`: the moves.
* `tour_closed`: what holds all along a tour.
-/

namespace SetCover

open Search

variable {inst : Instance} {first current s : Selection} {tried : List (Nat × Nat)}
  {E : Fault → Session → Prop} {σ : Session}

/-- A cover of known ids with its own cost, and of whatever size. -/
structure Selection.IsPriced (inst : Instance) (s : Selection) : Prop where
  covers : inst.covers s.ids = true
  cost_eq : s.cost = inst.weight s.ids.toList
  ids_lt : ∀ id ∈ s.ids, id < inst.subsetCount

theorem Selection.IsPriced.cost_le (h : s.IsPriced inst) : s.cost ≤ inst.totalCost := by
  rw [h.cost_eq]
  exact Instance.weight_le_totalCost h.ids_lt

/-- A priced selection that has its own size, or is the start. -/
def Selection.OnTour (inst : Instance) (s first : Selection) : Prop :=
  s.IsPriced inst ∧ (s.size = s.ids.card ∨ s = first)

theorem Selection.ChosenFrom.onTour (h : s.ChosenFrom inst current tried)
    (hcurrent : current.OnTour inst first) : s.OnTour inst first := by
  rcases h with ⟨rfl, _⟩ | ⟨p, _, hp, hof⟩
  · exact hcurrent
  · obtain ⟨hconsistent, hids⟩ := Selection.of_spec hof
    have hcovers : inst.covers s.ids = true := by
      rw [hids]
      exact (mem_coveringSwaps.mp hp).2.2
    exact ⟨⟨hcovers, hconsistent.cost_eq, hconsistent.ids_lt⟩, Or.inl hconsistent.size_eq⟩

/-- One move after another, each in the neighbourhood whose turn it is. -/
def tour (inst : Instance) (attempts : Nat) (hoods : Nat → Neighbourhood) : Anytime Selection where
  live := fun _ => true
  round := fun n s => (hoods n).move inst attempts s

theorem ends_tour_round (attempts : Nat) (hoods : Nat → Neighbourhood) (n : Nat)
    (hs : s.IsPriced inst) :
    Ends ((tour inst attempts hoods).round n s) E (fun s' _ =>
      s'.ChosenFrom inst s ((hoods n).trials inst attempts s.ids σ.source)) σ :=
  ends_move_chosen (hoods n) attempts hs.cost_eq hs.ids_lt hs.covers

/-- **Tours.** No move of a tour fails. All along, the selection covers, has its own cost, which is
at most that of all subsets, and only known ids, and it has its own size unless it still is the
start. A move takes at most one id out and puts at most one in, and never gives more ids than
before. What it gives is made by one of the swaps it tries that cover, and is the selection before
it, unchanged, if none of them does. An index that no neighbourhood has gives the selection of
nothing, without a draw. -/
theorem tour_closed (inst : Instance) (attempts : Nat) (hoods : Nat → Neighbourhood)
    (first : Selection) (hcovers : inst.covers first.ids = true)
    (hcost : first.cost = inst.weight first.ids.toList)
    (hids : ∀ id ∈ first.ids, id < inst.subsetCount) (σ : Session) :
    (∃ t : (tour inst attempts hoods).Trace, t.state 0 = first ∧ t.session 0 = σ ∧
      (∀ n, inst.covers (t.state n).ids = true ∧
        (t.state n).cost = inst.weight (t.state n).ids.toList ∧
        (∀ id ∈ (t.state n).ids, id < inst.subsetCount) ∧
        (t.state n).cost ≤ inst.totalCost ∧
        ((t.state n).size = (t.state n).ids.card ∨ t.state n = first)) ∧
      ∀ n, (t.state n).ids.OneSwapApart (t.state (n + 1)).ids ∧
        (t.state (n + 1)).ids.card ≤ (t.state n).ids.card ∧
        (t.state (n + 1)).ChosenFrom inst (t.state n)
          ((hoods n).trials inst attempts (t.state n).ids (t.session n).source)) ∧
    ∀ index, 3 ≤ index → ∀ current σ, (moveAt inst attempts current index).run σ =
      .ok .empty { σ with journal := .unknownNeighbourhood index :: σ.journal } := by
  refine ⟨?_, fun index hindex current σ => ?_⟩
  · have hstart : first.OnTour inst first := ⟨⟨hcovers, hcost, hids⟩, Or.inr rfl⟩
    obtain ⟨t, hstate, hsession, hkept⟩ := Anytime.exists_trace (h := tour inst attempts hoods)
      (I := fun s : Selection => s.OnTour inst first) (σ := σ) hstart fun n s σ hs =>
        (ends_tour_round attempts hoods n hs.1).weaken fun s' _ h => h.onTour hs
    refine ⟨t, hstate, hsession, fun n => ?_, fun n => ?_⟩
    · obtain ⟨hpriced, hsize⟩ := hkept n
      exact ⟨hpriced.covers, hpriced.cost_eq, hpriced.ids_lt, hpriced.cost_le, hsize⟩
    · have hchosen := (ends_tour_round (E := noFault) attempts hoods n (hkept n).1).of_run
        (t.round_eq n)
      exact ⟨hchosen.isNeighbour.oneSwapApart, hchosen.isNeighbour.card_le, hchosen⟩
  · have hnone : Neighbourhood.ofIndex? index = none := List.getElem?_eq_none hindex
    unfold moveAt
    rw [hnone]
    rfl

/-- The three neighbourhoods in turn, from a cover by a dear subset and one that is not needed. -/
theorem tour_closed_of_turns :
    ∃ inst, Instance.build 2 4 [7, 3, 3, 1] [[0, 1, 2], [0, 1, 3]] = .ok inst ∧
      inst.covers (.ofList [0, 2]) = true ∧ 10 = inst.weight [0, 2] ∧
      (∀ id ∈ IdSet.ofList [0, 2], id < inst.subsetCount) ∧
      ∃ t : (tour inst 1000 fun n => Neighbourhood.all.getD (n % 3) .best).Trace,
        t.state 0 = ⟨10, 2, .ofList [0, 2]⟩ ∧
        (t.state 1).ChosenFrom inst (t.state 0)
          (drawnSwaps inst (t.state 0).ids 1000 (t.session 0).source) ∧
        (t.state 2).ChosenFrom inst (t.state 1)
          (sweptSwaps inst (t.state 1).ids.toList (t.session 1).source) ∧
        (t.state 3).ChosenFrom inst (t.state 2) (allSwaps inst (t.state 2).ids) ∧
        ∀ n, inst.covers (t.state n).ids = true ∧ (t.state n).ids.card ≤ 2 := by
  obtain ⟨inst, hbuild, hcovers, hcost, hids⟩ :
      ∃ inst, Instance.build 2 4 [7, 3, 3, 1] [[0, 1, 2], [0, 1, 3]] = .ok inst ∧
        inst.covers (.ofList [0, 2]) = true ∧ 10 = inst.weight [0, 2] ∧
        ∀ id ∈ IdSet.ofList [0, 2], id < inst.subsetCount :=
    ⟨_, rfl, by decide +kernel, by decide, by decide⟩
  obtain ⟨⟨t, hstate, _, hkept, hstep⟩, _⟩ := tour_closed inst 1000
    (fun n => Neighbourhood.all.getD (n % 3) .best) ⟨10, 2, .ofList [0, 2]⟩ hcovers hcost hids
    ⟨.ofStream (.ofList [3, 1, 4]), []⟩
  have hcard : ∀ n, (t.state n).ids.card ≤ 2 := by
    intro n
    induction n with
    | zero => exact Nat.le_of_eq (congrArg (fun s : Selection => s.ids.card) hstate)
    | succ n ih => exact Nat.le_trans (hstep n).2.1 ih
  exact ⟨inst, hbuild, hcovers, hcost, hids, t, hstate, (hstep 0).2.2, (hstep 1).2.2,
    (hstep 2).2.2, fun n => ⟨(hkept n).1, hcard n⟩⟩

/-- A start that takes itself for larger than it is stays so when nothing is tried. -/
theorem size_ne_card_of_no_attempts :
    ∃ inst s σ σ', Instance.build 1 1 [3] [[0]] = .ok inst ∧ s = ⟨3, 5, .ofList [0]⟩ ∧
      inst.covers s.ids = true ∧ s.cost = inst.weight s.ids.toList ∧
      (∀ id ∈ s.ids, id < inst.subsetCount) ∧
      (Neighbourhood.random.move inst 0 s).run σ = .ok s σ' ∧ s.size ≠ s.ids.card :=
  ⟨_, _, ⟨.ofStream (.ofList []), []⟩, _, rfl, rfl, by decide +kernel, by decide, by decide, rfl,
    by decide⟩

end SetCover
