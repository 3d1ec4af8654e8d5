import SetCover.Heuristic.VariableNeighbourhood
import SetCover.Proofs.Greedy.Construction
import SetCover.Proofs.Heuristic.Trace
import SetCover.Proofs.Swap.Trials

/-!
# Descent of the variable neighbourhood search

The best swap of a cover never costs more than the cover, so a round that has come to the last
neighbourhood takes what it gives. So every round takes exactly one neighbour, and no round makes
the cover more expensive.

* `Descends`: what one round does.
* `ends_descend`: every round does that.
* `variableNeighbourhood_descends`: so does a run, for as long as it goes on.
-/

namespace SetCover

open Search

variable {inst : Instance} {current s : Selection} {E : Fault → Session → Prop} {σ σ' : Session}

/-! ## Neighbours taken -/

/-- The round and the index of the neighbourhood, for an entry that a neighbour was taken. -/
def Event.taken? : Event → Option (Nat × Nat)
  | .neighbourhoodTaken round index => some (round, index)
  | _ => none

/-- The neighbours taken according to a journal, the last one first. -/
def takenIn (journal : List Event) : List (Nat × Nat) := journal.filterMap Event.taken?

theorem takenIn_of_added (h : Added IsExhaustion σ σ') :
    takenIn σ'.journal = takenIn σ.journal := by
  refine h.filterMap_eq ?_
  rintro _ ⟨attempts, rfl⟩
  rfl

/-! ## One round -/

/-- Rounds lead from covers to covers, even where the costs are too large to be compared. -/
theorem ends_descend_isCover (attempts round : Nat) (hoods : List (Neighbourhood × Nat))
    (hcurrent : current.IsCover inst) :
    Ends (VariableNeighbourhood.descend inst attempts round current hoods) E
      (fun s _ => s.IsCover inst) σ := by
  induction hoods generalizing σ with
  | nil => exact ends_pure hcurrent
  | cons p rest ih =>
      rw [VariableNeighbourhood.descend]
      refine ends_bind (ends_move p.1 attempts hcurrent) fun s σ hmove => ?_
      have hcover := hmove.1.isCover hcurrent
      refine ends_ite (fun _ => ?_) fun _ => ih
      refine ends_note_bind (ends_ite (fun _ => ?_) fun _ => ends_pure hcover)
      exact ends_note_bind (ends_pure hcover)

/-- A round over some neighbourhoods that takes the neighbour `s` in the neighbourhood with `index`:
the neighbours before it are more expensive than `current`, and `s` is not. -/
inductive Descends (inst : Instance) (attempts : Nat) (current : Selection) :
    List (Neighbourhood × Nat) → Session → Nat → Selection → Session → Prop
  | take {hood index rest s σ σ'} :
      (hood.move inst attempts current).run σ = .ok s σ' → s.cost ≤ current.cost →
      Descends inst attempts current ((hood, index) :: rest) σ index s σ'
  | pass {hood i rest s₁ σ σ₁ index s σ'} :
      (hood.move inst attempts current).run σ = .ok s₁ σ₁ → current.cost < s₁.cost →
      Descends inst attempts current rest σ₁ index s σ' →
      Descends inst attempts current ((hood, i) :: rest) σ index s σ'

variable {hoods : List (Neighbourhood × Nat)} {attempts index : Nat}

theorem Descends.cost_le (h : Descends inst attempts current hoods σ index s σ') :
    s.cost ≤ current.cost := by
  induction h with
  | take _ hle => exact hle
  | pass _ _ _ ih => exact ih

theorem Descends.isCover (h : Descends inst attempts current hoods σ index s σ')
    (hcurrent : current.IsCover inst) : s.IsCover inst := by
  induction h with
  | @take hood =>
      next hrun _ =>
        have hmove := (ends_move (E := noFault) hood attempts hcurrent).of_run hrun
        exact hmove.1.isCover hcurrent
  | pass _ _ _ ih => exact ih

theorem Selection.IsSwapOf.ids_ne_empty (h : s.IsSwapOf inst current) : current.ids ≠ .empty := by
  obtain ⟨p, hp, _⟩ := h
  intro hempty
  have hout := (mem_coveringSwaps.mp hp).1
  rw [hempty] at hout
  exact IdSet.not_mem_empty hout

/-- A round that gets past the first two neighbourhoods moves to a cheapest cover one swap away. -/
theorem Descends.isCheapestSwapOf
    (h : Descends inst attempts current Neighbourhood.all.zipIdx σ 2 s σ')
    (hcurrent : current.IsCover inst) : s.IsCheapestSwapOf inst current := by
  cases h with
  | pass hrandom hlt h =>
      have hneighbour := ((ends_move (E := noFault) _ attempts hcurrent).of_run hrandom).1
      have hids : current.ids ≠ .empty := by
        rcases hneighbour with rfl | hswap
        · exact absurd hlt (Nat.lt_irrefl _)
        · exact hswap.ids_ne_empty
      cases h with
      | pass _ _ h =>
          cases h with
          | take hbest _ =>
              have hmove := (ends_move (E := noFault) _ attempts hcurrent).of_run hbest
              rcases (hmove.2 rfl).2 with ⟨hempty, _⟩ | hcheapest
              · exact absurd hempty hids
              · exact hcheapest
          | pass _ _ h => cases h

/-- Every round that comes to the best swap at last takes a neighbour, and writes so once. -/
theorem ends_descend (round : Nat) (hcurrent : current.IsCover inst)
    (hbound : inst.totalCost < 2 ^ 63) (hbest : ∃ p ∈ hoods, p.1 = Neighbourhood.best) :
    Ends (VariableNeighbourhood.descend inst attempts round current hoods) E
      (fun s σ' => ∃ index σ₁, Descends inst attempts current hoods σ index s σ₁ ∧
        takenIn σ'.journal = (round, index) :: takenIn σ.journal) σ := by
  induction hoods generalizing σ with
  | nil =>
      obtain ⟨p, hp, _⟩ := hbest
      exact absurd hp List.not_mem_nil
  | cons p rest ih =>
      obtain ⟨hood, index⟩ := p
      rw [VariableNeighbourhood.descend]
      refine ends_bind ((ends_move hood attempts hcurrent).writing
        (writes_move hood attempts)).with_run ?_
      rintro s σ₁ ⟨⟨⟨hneighbour, hsmall⟩, hadded⟩, hrun⟩
      have htaken := takenIn_of_added hadded
      have hdelta := Selection.delta_nonpos_iff
        (Nat.lt_of_le_of_lt (hneighbour.isCover hcurrent).cost_le hbound)
        (Nat.lt_of_le_of_lt hcurrent.cost_le hbound)
      refine ends_ite (fun hle => ?_) fun hgt => ?_
      · have htake : ∀ σ', takenIn σ'.journal = (round, index) :: takenIn σ.journal →
            Ends (pure s) E (fun s σ' => ∃ i σ₁,
              Descends inst attempts current ((hood, index) :: rest) σ i s σ₁ ∧
                takenIn σ'.journal = (round, i) :: takenIn σ.journal) σ' := fun σ' h =>
          ends_pure ⟨index, σ₁, .take hrun (hdelta.mp hle), h⟩
        have hentry : takenIn (.neighbourhoodTaken round index :: σ₁.journal) =
            (round, index) :: takenIn σ.journal := congrArg ((round, index) :: ·) htaken
        refine ends_note_bind (ends_ite (fun _ => ?_) fun _ => htake _ hentry)
        exact ends_note_bind (htake _ hentry)
      · -- the best swap is never more expensive, so it is still to come
        have hgt : current.cost < s.cost := Nat.lt_of_not_le fun h => hgt (hdelta.mpr h)
        have hrest : ∃ p ∈ rest, p.1 = Neighbourhood.best := by
          obtain ⟨q, hq, hhood⟩ := hbest
          rcases List.mem_cons.mp hq with rfl | hq
          · exact absurd (hsmall hhood).1 (Nat.not_le.mpr hgt)
          · exact ⟨q, hq, hhood⟩
        refine (ih hrest).weaken ?_
        rintro s' σ' ⟨i, σ₂, hdescends, htaken'⟩
        exact ⟨i, σ₂, .pass hrun hgt hdescends, by rw [htaken', htaken]⟩

/-! ## Whole runs -/

/-- On a coverable instance a run never fails and has no round without a neighbour. It starts from
the cheapest-first construction, wherever the words that it draws come from; then every round takes
exactly one neighbour, the cover stays a cover and never becomes more expensive. A round that comes
to the last neighbourhood moves to the cheapest cover one swap away. -/
theorem variableNeighbourhood_descends (hcoverable : inst.requireCoverable = .ok ())
    (hpos : 1 ≤ inst.subsetCount) (hcost : inst.totalCost < 2 ^ 63 - 1) (settings : Settings)
    (budget : Nat) (σ : Session) :
    ∃ (greedy : Selection) (t : @Anytime.Trace Selection
        (variableNeighbourhood inst settings budget).rounds),
      (∀ σ', ∃ σ'', (cheapestFirst inst).run σ' = .ok greedy σ'') ∧
      t.state 0 = greedy ∧ (cheapestFirst inst).run σ = .ok (t.state 0) (t.session 0) ∧
      (∀ n, (t.state n).IsCover inst ∧ (t.state (n + 1)).cost ≤ (t.state n).cost ∧
        (t.state n).cost ≤ greedy.cost) ∧
      (∀ n, ∃ index σ', Descends inst settings.swapAttempts (t.state n) Neighbourhood.all.zipIdx
          (t.session n) index (t.state (n + 1)) σ' ∧
        takenIn (t.session (n + 1)).journal = (n, index) :: takenIn (t.session n).journal ∧
        (index = 2 → (t.state (n + 1)).IsCheapestSwapOf inst (t.state n))) ∧
      ∀ clock, ∃ n, n ≤ settings.rounds.getD roundLimit ∧
        ((variableNeighbourhood inst settings budget).run clock).run σ =
          .ok (t.state n) (t.session n) := by
  have hcosts : ∀ id < inst.subsetCount, inst.costAt id < 2 ^ 63 - 1 := fun id hid =>
    Nat.lt_of_le_of_lt (Instance.costAt_le_totalCost hid) hcost
  have hbound : inst.totalCost < 2 ^ 63 := by omega
  have hbest : ∃ p ∈ Neighbourhood.all.zipIdx, p.1 = Neighbourhood.best := ⟨(.best, 2), by decide⟩
  obtain ⟨greedy, hgreedy, htotal⟩ := cheapestFirst_total hcoverable hpos hcosts
  have hstart : ∀ σ', ∃ σ'', (cheapestFirst inst).run σ' = .ok greedy σ'' := by
    intro σ'
    obtain ⟨_, σ'', hrun, rfl⟩ := (htotal noFault σ').exists_run
    exact ⟨σ'', hrun⟩
  obtain ⟨σ₀, hrun₀⟩ := hstart σ
  obtain ⟨t, hstate, hsession, hcovers⟩ := Anytime.exists_trace
    (h := (variableNeighbourhood inst settings budget).rounds) (σ := σ₀)
    (I := fun s : Selection => s.IsCover inst) hgreedy fun n s σ hs =>
      (ends_descend n hs hbound hbest).weaken fun s' _ ⟨_, _, h, _⟩ => h.isCover hs
  have hround : ∀ n, ∃ index σ', Descends inst settings.swapAttempts (t.state n)
      Neighbourhood.all.zipIdx (t.session n) index (t.state (n + 1)) σ' ∧
        takenIn (t.session (n + 1)).journal = (n, index) :: takenIn (t.session n).journal :=
    fun n => (ends_descend (E := noFault) n (hcovers n) hbound hbest).of_run (t.round_eq n)
  have hstep : ∀ n, (t.state (n + 1)).cost ≤ (t.state n).cost := by
    intro n
    obtain ⟨_, _, hdescends, _⟩ := hround n
    exact hdescends.cost_le
  have hle : ∀ n, (t.state n).cost ≤ greedy.cost := by
    intro n
    induction n with
    | zero => exact Nat.le_of_eq (congrArg Selection.cost hstate)
    | succ n ih => exact Nat.le_trans (hstep n) ih
  refine ⟨greedy, t, hstart, hstate, by rw [hstate, hsession]; exact hrun₀,
    fun n => ⟨hcovers n, hstep n, hle n⟩, fun n => ?_, ?_⟩
  · obtain ⟨index, σ', hdescends, htaken⟩ := hround n
    refine ⟨index, σ', hdescends, htaken, ?_⟩
    rintro rfl
    exact hdescends.isCheapestSwapOf (hcovers n)
  · intro clock
    obtain ⟨n, hn, hrun⟩ := t.run_eq clock budget settings.rounds
    rw [hstate, hsession] at hrun
    exact ⟨n, hn, job_run_eq hrun₀ hrun rfl⟩

/-- A run on two elements, with words that are zero from the fourth on. -/
theorem variableNeighbourhood_of_two_elements :
    ∃ inst, Instance.build 2 4 [7, 3, 3, 1] [[0, 1, 2], [0, 1, 3]] = .ok inst ∧
      inst.requireCoverable = .ok () ∧ 1 ≤ inst.subsetCount ∧ inst.totalCost < 2 ^ 63 - 1 ∧
      ∀ clock, ∃ s σ', ((variableNeighbourhood inst {} 5).run clock).run
        ⟨.ofStream (.ofList [3, 1, 4]), []⟩ = .ok s σ' ∧ s.IsCover inst := by
  obtain ⟨inst, hbuild, hcoverable, hpos, hcost⟩ :
      ∃ inst, Instance.build 2 4 [7, 3, 3, 1] [[0, 1, 2], [0, 1, 3]] = .ok inst ∧
        inst.requireCoverable = .ok () ∧ 1 ≤ inst.subsetCount ∧ inst.totalCost < 2 ^ 63 - 1 :=
    ⟨_, rfl, by with_unfolding_all rfl, by decide, by decide +kernel⟩
  refine ⟨inst, hbuild, hcoverable, hpos, hcost, fun clock => ?_⟩
  obtain ⟨_, t, _, _, _, hcovers, _, hrun⟩ := variableNeighbourhood_descends hcoverable hpos hcost
    {} 5 ⟨.ofStream (.ofList [3, 1, 4]), []⟩
  obtain ⟨n, _, hrun⟩ := hrun clock
  exact ⟨_, _, hrun, (hcovers n).1⟩

end SetCover
