import Mathlib.Data.List.Chain
import SetCover.Proofs.Heuristic.Annealing
import SetCover.Proofs.Selection.Earliest

/-!
# The walk of annealing

What annealing does between its start and its answer is a walk: it looks at one random swap after
another and takes it or not. A neighbour that costs no more is always taken. For one that costs
more a word is drawn, and a walk may go on either way, whatever the temperature. So what holds of
every walk holds for every outcome of the tests of more expensive neighbours. The journal of a run
has the outcomes of its walk.

* `Annealing.Walk`: the walks from a start.
* `Annealing.verdictsIn`: the outcomes that a journal has.
* `Walk.spec`: a walk visits covers, each of them one swap away from the one before.
* `Moved.walked`, `ends_round_walked`: moves go on with a walk, and keep its best selection.
* `annealing_earliest_cheapest`: so the answer is the earliest of the cheapest covers visited.
-/

namespace SetCover

open Search

variable {inst : Instance} {attempts : Nat} {first current s : Selection}
  {outcomes : List Bool} {visited : List Selection} {E : Fault → Session → Prop}
  {σ₀ σ σ₁ σ' : Session}

namespace Annealing

/-- A walk from `first`, with words from `σ₀` on: whether each neighbour is taken, last one first,
the selections taken after `first`, in order, the last selection, and a session that has the words
to come. -/
inductive Walk (inst : Instance) (attempts : Nat) (first : Selection) (σ₀ : Session) :
    List Bool → List Selection → Selection → Session → Prop
  | start {σ : Session} : σ.source = σ₀.source → Walk inst attempts first σ₀ [] [] first σ
  /-- A neighbour is taken; if it costs more, a word was drawn for that. -/
  | take {outcomes : List Bool} {visited : List Selection} {current s : Selection}
      {σ σ₁ σ' : Session} : Walk inst attempts first σ₀ outcomes visited current σ →
      (randomSwap inst attempts current).run σ = .ok s σ₁ →
      σ'.source = (if s.cost ≤ current.cost then σ₁.source else σ₁.source.next.2) →
      Walk inst attempts first σ₀ (true :: outcomes) (visited ++ [s]) s σ'
  /-- A neighbour is turned down after a word was drawn, which only happens if it costs more. -/
  | refuse {outcomes : List Bool} {visited : List Selection} {current s : Selection}
      {σ σ₁ σ' : Session} : Walk inst attempts first σ₀ outcomes visited current σ →
      (randomSwap inst attempts current).run σ = .ok s σ₁ → current.cost < s.cost →
      σ'.source = σ₁.source.next.2 →
      Walk inst attempts first σ₀ (false :: outcomes) visited current σ'

/-- What an entry says of the test of a neighbour: whether it is taken. -/
def verdict? : Event → Option Bool
  | .moveAccepted .. => some true
  | .moveRejected _ => some false
  | _ => none

/-- Whether each neighbour was taken, last one first, as a journal has it. -/
def verdictsIn (journal : List Event) : List Bool := journal.filterMap verdict?

/-! ## What every walk is like -/

/-- Only the words matter to a walk, not what is written down. -/
theorem Walk.of_source_eq (h : Walk inst attempts first σ₀ outcomes visited current σ)
    (hsource : σ'.source = σ.source) :
    Walk inst attempts first σ₀ outcomes visited current σ' := by
  cases h with
  | start h₀ => exact .start (hsource.trans h₀)
  | take hwalk hrun hnext => exact .take hwalk hrun (hsource.trans hnext)
  | refuse hwalk hrun hlt hnext => exact .refuse hwalk hrun hlt (hsource.trans hnext)

theorem Walk.getLast? (h : Walk inst attempts first σ₀ outcomes visited current σ) :
    (first :: visited).getLast? = some current := by
  induction h with
  | start => rfl
  | take => rw [← List.cons_append, List.getLast?_concat]
  | refuse _ _ _ _ ih => exact ih

/-- A walk from a cover only visits covers, each of them one swap away from the one before. -/
theorem Walk.spec (h : Walk inst attempts first σ₀ outcomes visited current σ)
    (hfirst : first.IsCover inst) :
    (∀ s ∈ first :: visited, s.IsCover inst) ∧
      (first :: visited).IsChain (fun s t => s.ids.OneSwapApart t.ids) := by
  induction h with
  | start => exact ⟨by simpa using hfirst, List.isChain_singleton _⟩
  | take hwalk hrun _ ih =>
      obtain ⟨hcovers, hchain⟩ := ih
      have hlast := hwalk.getLast?
      have hcurrent := hcovers _ (List.mem_of_getLast? hlast)
      have hneighbour := isNeighbour_of_run hcurrent hrun
      rw [← List.cons_append]
      constructor
      · intro t ht
        rcases List.mem_append.mp ht with ht | ht
        · exact hcovers t ht
        · rw [List.mem_singleton.mp ht]
          exact hneighbour.isCover hcurrent
      · refine List.isChain_append.mpr ⟨hchain, List.isChain_singleton _, ?_⟩
        intro a ha b hb
        rw [hlast] at ha
        cases ha
        cases hb
        exact hneighbour.oneSwapApart
  | refuse _ _ _ _ ih => exact ih

theorem Walk.isCover (h : Walk inst attempts first σ₀ outcomes visited current σ)
    (hfirst : first.IsCover inst) : current.IsCover inst :=
  (h.spec hfirst).1 current (List.mem_of_getLast? h.getLast?)

/-! ## The rounds of annealing -/

/-- A state of annealing after a walk whose outcomes are in the journal: its best selection is the
first of the cheapest visited. -/
def State.Walked (inst : Instance) (attempts : Nat) (first : Selection) (σ₀ : Session) (s : State)
    (σ : Session) : Prop :=
  ∃ outcomes visited, Walk inst attempts first σ₀ outcomes visited s.current σ ∧
    verdictsIn σ.journal = outcomes ++ verdictsIn σ₀.journal ∧
    s.best.IsEarliestCheapest (first :: visited)

/-- What is written beside a neighbour says nothing of how its test ended. -/
theorem verdict?_of_isAside (event : Event) (h : IsAside event) : verdict? event = none := by
  rcases h with ⟨attempts, rfl⟩ | ⟨step, cost, rfl⟩
  · rfl
  · rfl

theorem verdictsIn_of_addedOne {event : Event} {taken : Bool} (h : AddedOne IsAside event σ σ')
    (hverdict : verdict? event = some taken) :
    verdictsIn σ'.journal = taken :: verdictsIn σ.journal := by
  rw [verdictsIn, h.filterMap_eq verdict?_of_isAside, hverdict]
  rfl

theorem State.Walked.covers {state : State} (hs : state.Walked inst attempts first σ₀ σ)
    (hfirst : first.IsCover inst) : state.Covers inst := by
  obtain ⟨_, _, hwalk, -, hbest⟩ := hs
  exact ⟨hwalk.isCover hfirst, (hwalk.spec hfirst).1 state.best hbest.mem⟩

/-- A move is one step of the walk. -/
theorem Moved.walked {state state' : State} (h : Moved inst attempts state σ state' σ')
    (hfirst : first.IsCover inst) (hbound : inst.totalCost < 2 ^ 63)
    (hs : state.Walked inst attempts first σ₀ σ) : state'.Walked inst attempts first σ₀ σ' := by
  have hcurrent := (hs.covers hfirst).current
  obtain ⟨outcomes, visited, hwalk, hverdicts, hbest⟩ := hs
  have hdelta : ∀ {s : Selection}, s.IsNeighbour inst state.current →
      (s.delta state.current ≤ 0 ↔ s.cost ≤ state.current.cost) := fun hneighbour =>
    Selection.delta_nonpos_iff
      (Nat.lt_of_le_of_lt (hneighbour.isCover hcurrent).cost_le hbound)
      (Nat.lt_of_le_of_lt hcurrent.cost_le hbound)
  cases h with
  | @taken s best σ₁ _ hrun hbetter hsource hentry =>
      have hneighbour := isNeighbour_of_run hcurrent hrun
      simp only [hdelta hneighbour] at hsource
      refine ⟨true :: outcomes, visited ++ [s], .take hwalk hrun hsource, ?_, ?_⟩
      · rw [verdictsIn_of_addedOne hentry rfl, hverdicts, List.cons_append]
      · rw [hbetter]
        exact hbest.concat s
  | @refused s σ₁ _ hrun hpos hsource hentry =>
      have hneighbour := isNeighbour_of_run hcurrent hrun
      have hlt : state.current.cost < s.cost :=
        Nat.lt_of_not_le fun hle => Int.not_le.mpr hpos ((hdelta hneighbour).mpr hle)
      refine ⟨false :: outcomes, visited, .refuse hwalk hrun hlt hsource, ?_, hbest⟩
      rw [verdictsIn_of_addedOne hentry rfl, hverdicts, List.cons_append]

theorem ends_round_walked {state : State} (start : Float) (count : Nat)
    (cooling : Float → Nat → Float) (step : Nat) (hfirst : first.IsCover inst)
    (hbound : inst.totalCost < 2 ^ 63) (hs : state.Walked inst attempts first σ₀ σ) :
    Ends (round inst attempts start count cooling step state) E
      (fun state' σ' => state'.Walked inst attempts first σ₀ σ') σ := by
  refine ends_round_of_moves ((ends_moves attempts step count (hs.covers hfirst)).weaken ?_)
  rintro state' σ' ⟨hmoved, -⟩
  obtain ⟨outcomes, visited, hwalk, hverdicts, hbest⟩ :=
    hmoved.invariant (I := fun state σ => state.Walked inst attempts first σ₀ σ) hs
      fun _ _ _ _ hs hmove => hmove.walked hfirst hbound hs
  exact ⟨outcomes, visited, hwalk.of_source_eq rfl, hverdicts, hbest⟩

theorem check_eq_ok {start : Float} {count : Nat} (hfinite : start.isFinite = true)
    (hnonneg : ¬ start < 0.0) (hcount : 1 ≤ count) : check start count = .ok () := by
  have hstart : ¬ ((!start.isFinite || decide (start < 0.0)) = true) := by
    simp [hfinite, hnonneg]
  unfold check
  rw [if_neg hstart, if_neg (by omega)]

end Annealing

/-- **The answer of annealing.** On a coverable instance, and with a start and a number of moves
that are in order, a run does not fail. It starts from the cheapest-first construction and goes on
with the walk whose outcomes are in its journal, and its answer is the first of the cheapest covers
that are visited, so it never costs more than the start. -/
theorem annealing_earliest_cheapest (hcoverable : inst.requireCoverable = .ok ())
    (hpos : 1 ≤ inst.subsetCount) (hcost : inst.totalCost < 2 ^ 63 - 1) (settings : Settings)
    (budget : Nat) {start : Float} {count : Nat} (hfinite : start.isFinite = true)
    (hnonneg : ¬ start < 0.0) (hcount : 1 ≤ count) (cooling : Float → Nat → Float) (σ : Session) :
    ∃ greedy σ₀, (∀ σ', ∃ σ'', (cheapestFirst inst).run σ' = .ok greedy σ'') ∧
      (cheapestFirst inst).run σ = .ok greedy σ₀ ∧
      ∀ clock, ∃ best outcomes visited last σ',
        ((annealing inst settings budget start count cooling).run clock).run σ = .ok best σ' ∧
        Annealing.Walk inst settings.swapAttempts greedy σ₀ outcomes visited last σ' ∧
        Annealing.verdictsIn σ'.journal = outcomes ++ Annealing.verdictsIn σ₀.journal ∧
        best.IsEarliestCheapest (greedy :: visited) ∧
        (∀ s ∈ greedy :: visited, s.IsCover inst) ∧
        (greedy :: visited).IsChain (fun s t => s.ids.OneSwapApart t.ids) ∧
        best.cost ≤ greedy.cost := by
  have hcosts : ∀ id < inst.subsetCount, inst.costAt id < 2 ^ 63 - 1 := fun id hid =>
    Nat.lt_of_le_of_lt (Instance.costAt_le_totalCost hid) hcost
  have hbound : inst.totalCost < 2 ^ 63 := by omega
  obtain ⟨greedy, hgreedy, htotal⟩ := cheapestFirst_total hcoverable hpos hcosts
  have hstart : ∀ σ', ∃ σ'', (cheapestFirst inst).run σ' = .ok greedy σ'' := by
    intro σ'
    obtain ⟨_, σ'', hrun, rfl⟩ := (htotal noFault σ').exists_run
    exact ⟨σ'', hrun⟩
  obtain ⟨σ₀, hrun₀⟩ := hstart σ
  refine ⟨greedy, σ₀, hstart, hrun₀, fun clock => ?_⟩
  have hends : Ends ((annealing inst settings budget start count cooling).run clock) noFault
      (fun best σ' => ∃ outcomes visited last,
        Annealing.Walk inst settings.swapAttempts greedy σ₀ outcomes visited last σ' ∧
          Annealing.verdictsIn σ'.journal = outcomes ++ Annealing.verdictsIn σ₀.journal ∧
          best.IsEarliestCheapest (greedy :: visited)) σ := by
    refine ends_job_session
      (I := Annealing.State.Walked inst settings.swapAttempts greedy σ₀) ?_ ?_ ?_ clock
    · refine ends_ofExcept_bind (Annealing.check_eq_ok hfinite hnonneg hcount) ?_
      refine ends_bind (R := fun s σ' => s = greedy ∧ σ' = σ₀) (ends_of_run hrun₀ ⟨rfl, rfl⟩) ?_
      rintro _ _ ⟨rfl, rfl⟩
      exact ends_pure ⟨[], [], .start rfl, rfl, Selection.isEarliestCheapest_singleton _⟩
    · intro n state σ hs
      exact Annealing.ends_round_walked start count cooling n hgreedy hbound hs
    · rintro state σ ⟨outcomes, visited, hwalk, hverdicts, hbest⟩
      exact ends_pure ⟨outcomes, visited, state.current, hwalk, hverdicts, hbest⟩
  obtain ⟨best, σ', hrun, outcomes, visited, last, hwalk, hverdicts, hbest⟩ := hends.exists_run
  obtain ⟨hcovers, hchain⟩ := hwalk.spec hgreedy
  exact ⟨best, outcomes, visited, last, σ', hrun, hwalk, hverdicts, hbest, hcovers, hchain,
    hbest.cost_le List.mem_cons_self⟩

/-- A run on two elements from a temperature of two and a half, which does not fall. -/
theorem annealing_of_two_elements :
    ∃ inst, Instance.build 2 4 [7, 3, 3, 1] [[0, 1, 2], [0, 1, 3]] = .ok inst ∧
      inst.requireCoverable = .ok () ∧ 1 ≤ inst.subsetCount ∧ inst.totalCost < 2 ^ 63 - 1 ∧
      (2.5 : Float).isFinite = true ∧ ¬ (2.5 : Float) < 0.0 ∧
      ∀ clock, ∃ s σ', ((annealing inst {} 5 2.5 3 fun start _ => start).run clock).run
        ⟨.ofStream (.ofList [3, 1, 4]), []⟩ = .ok s σ' ∧ s.IsCover inst := by
  obtain ⟨inst, hbuild, hcoverable, hpos, hcost⟩ :
      ∃ inst, Instance.build 2 4 [7, 3, 3, 1] [[0, 1, 2], [0, 1, 3]] = .ok inst ∧
        inst.requireCoverable = .ok () ∧ 1 ≤ inst.subsetCount ∧ inst.totalCost < 2 ^ 63 - 1 :=
    ⟨_, rfl, by with_unfolding_all rfl, by decide, by decide +kernel⟩
  have hfinite : (2.5 : Float).isFinite = true := by decide
  have hnonneg : ¬ (2.5 : Float) < 0.0 := by decide
  refine ⟨inst, hbuild, hcoverable, hpos, hcost, hfinite, hnonneg, fun clock => ?_⟩
  obtain ⟨_, _, _, _, hrun⟩ := annealing_earliest_cheapest hcoverable hpos hcost {} 5 hfinite
    hnonneg (show 1 ≤ 3 by decide) (fun start _ => start) ⟨.ofStream (.ofList [3, 1, 4]), []⟩
  obtain ⟨best, _, _, _, σ', hrun, _, _, hbest, hcovers, _⟩ := hrun clock
  exact ⟨best, σ', hrun, hcovers best hbest.mem⟩

end SetCover
