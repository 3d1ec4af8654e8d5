import SetCover.Heuristic.Call
import SetCover.Proofs.Greedy.Draws
import SetCover.Proofs.Heuristic.Descent
import SetCover.Proofs.Heuristic.Walk
import SetCover.Proofs.Selection.Signed
import SetCover.Proofs.Swap.Trials

/-!
# Neighbours that are accepted outright

Variable neighbourhood search and annealing look at one neighbour after another and accept those
outright whose difference to the current selection is not positive. The difference is taken of
signed readings. So these are the neighbours that cost no more, as long as the same subsets of half
of the range or more are selected; where such a subset comes in or goes out it is the other way
round.

* `VariableNeighbourhood.Tries`, `Annealing.Tries`: what one round looks at.
* `Call.Considers`: the pairs of a current selection and a neighbour that a run looks at.
* `Call.Considers.spec`: both are covers, one swap apart, and the difference decides.
* `Call.accepts_outright_iff`: when the costs decide.
-/

namespace SetCover

open Search

variable {inst : Instance} {attempts : Nat} {current s : Selection} {outright : Bool}
  {E : Fault → Session → Prop} {σ σ' : Session}

namespace VariableNeighbourhood

/-- A round over some neighbourhoods looks at the neighbour `s`, and takes it or passes it by. -/
inductive Tries (inst : Instance) (attempts : Nat) (current : Selection) :
    List (Neighbourhood × Nat) → Session → Selection → Bool → Prop
  | taken {hood index rest s σ σ₁} : (hood.move inst attempts current).run σ = .ok s σ₁ →
      s.delta current ≤ 0 → Tries inst attempts current ((hood, index) :: rest) σ s true
  | passed {hood index rest s σ σ₁} : (hood.move inst attempts current).run σ = .ok s σ₁ →
      0 < s.delta current → Tries inst attempts current ((hood, index) :: rest) σ s false
  | later {hood index rest s s₁ σ σ₁ outright} :
      (hood.move inst attempts current).run σ = .ok s₁ σ₁ → 0 < s₁.delta current →
      Tries inst attempts current rest σ₁ s outright →
      Tries inst attempts current ((hood, index) :: rest) σ s outright

variable {hoods : List (Neighbourhood × Nat)}

theorem Tries.spec (h : Tries inst attempts current hoods σ s outright)
    (hcurrent : current.IsCover inst) :
    s.IsNeighbour inst current ∧ (outright = true ↔ s.delta current ≤ 0) := by
  induction h with
  | @taken hood index rest s σ σ₁ hrun hle =>
      have hmove := (ends_move (E := noFault) hood attempts hcurrent).of_run hrun
      exact ⟨hmove.1, iff_of_true rfl hle⟩
  | @passed hood index rest s σ σ₁ hrun hlt =>
      have hmove := (ends_move (E := noFault) hood attempts hcurrent).of_run hrun
      exact ⟨hmove.1, iff_of_false Bool.false_ne_true (Int.not_le.mpr hlt)⟩
  | later _ _ _ ih => exact ih

/-- A round ends with the neighbour that it takes. -/
theorem Tries.exists_run (h : Tries inst attempts current hoods σ s true) (round : Nat) :
    ∃ σ', (descend inst attempts round current hoods).run σ = .ok s σ' := by
  generalize htaken : true = taken at h
  induction h with
  | taken hrun hle =>
      rw [descend, run_bind_ok hrun, if_pos hle]
      split
      · exact ⟨_, rfl⟩
      · exact ⟨_, rfl⟩
  | passed => cases htaken
  | later hrun hlt _ ih =>
      rw [descend, run_bind_ok hrun, if_neg (Int.not_le.mpr hlt)]
      exact ih htaken

end VariableNeighbourhood

namespace Annealing

/-- The moves of a round look at the neighbour `s` of `current`, and accept it outright, which is
without a draw, or not. -/
inductive Tries (inst : Instance) (attempts step : Nat) :
    Nat → State → Session → Selection → Selection → Bool → Prop
  | outright {left state s σ σ₁} : (randomSwap inst attempts state.current).run σ = .ok s σ₁ →
      (accepted state.temperature (s.delta state.current)).run σ₁ = .ok true σ₁ →
      Tries inst attempts step (left + 1) state σ state.current s true
  | tested {left state s σ σ₁} : (randomSwap inst attempts state.current).run σ = .ok s σ₁ →
      (accepted state.temperature (s.delta state.current)).run σ₁ ≠ .ok true σ₁ →
      Tries inst attempts step (left + 1) state σ state.current s false
  | later {left state state₁ current s σ σ₁ outright} :
      (move inst attempts step state).run σ = .ok state₁ σ₁ →
      Tries inst attempts step left state₁ σ₁ current s outright →
      Tries inst attempts step (left + 1) state σ current s outright

theorem accepted_run_iff {temperature : Float} {delta : Int} :
    (accepted temperature delta).run σ = .ok true σ ↔ delta ≤ 0 := by
  constructor
  · intro hrun
    have hdrawing := (ends_accepted_drawing (E := noFault) temperature delta).of_run hrun
    by_contra hgt
    rw [if_neg hgt] at hdrawing
    have hdrawn := congrArg (fun σ : Session => σ.source.drawn) hdrawing.1
    simp at hdrawn
  · intro hle
    rw [accepted, if_pos hle]
    rfl

theorem Tries.spec {step left : Nat} {state : State}
    (h : Tries inst attempts step left state σ current s outright) (hstate : state.Covers inst) :
    current.IsCover inst ∧ s.IsNeighbour inst current ∧
      (outright = true ↔ s.delta current ≤ 0) := by
  induction h with
  | outright hrun haccepted =>
      exact ⟨hstate.current, isNeighbour_of_run hstate.current hrun,
        iff_of_true rfl (accepted_run_iff.mp haccepted)⟩
  | tested hrun hdrawn =>
      exact ⟨hstate.current, isNeighbour_of_run hstate.current hrun,
        iff_of_false Bool.false_ne_true fun hle => hdrawn (accepted_run_iff.mpr hle)⟩
  | later hrun _ ih =>
      exact ih ((ends_move (E := noFault) attempts step hstate).of_run hrun)

end Annealing

/-! ## Pairs of a run -/

/-- The run that answers a call in the session `σ` looks at the neighbour `s` of `current`, and
accepts it outright or not. -/
inductive Call.Considers (inst : Instance) (settings : Settings) (clock : Clock) (σ : Session) :
    Call → Selection → Selection → Bool → Prop
  | neighbourhoods {budget n current s outright} {σ' : Session} :
      (variableNeighbourhood inst settings budget).Begins clock σ n current σ' →
      VariableNeighbourhood.Tries inst settings.swapAttempts current Neighbourhood.all.zipIdx σ' s
        outright →
      Considers inst settings clock σ (.neighbourhoods budget) current s outright
  | annealing {budget start moves cooling n current s outright} {state : Annealing.State}
      {σ' : Session} :
      (SetCover.annealing inst settings budget start moves cooling).Begins clock σ n state σ' →
      Annealing.Tries inst settings.swapAttempts n moves state σ' current s outright →
      Considers inst settings clock σ (.annealing budget start moves cooling) current s outright

namespace Call

variable {settings : Settings} {clock : Clock} {call : Call}

theorem Considers.spec (h : call.Considers inst settings clock σ current s outright) :
    current.IsCover inst ∧ s.IsNeighbour inst current ∧
      (outright = true ↔ s.delta current ≤ 0) := by
  have hfirst : Ends (SetCover.cheapestFirst inst) anyFault (fun s _ => s.IsCover inst) σ :=
    ends_multistart 1 1 0
  cases h with
  | @neighbourhoods budget n _ _ _ σ' hbegins htries =>
      have hround : ∀ n (s : Selection) σ, s.IsCover inst →
          Ends ((variableNeighbourhood inst settings budget).rounds.round n s) anyFault
            (fun s' _ => Selection.IsCover inst s') σ :=
        fun n s σ hs => ends_descend_isCover settings.swapAttempts n _ hs
      have hcurrent : current.IsCover inst := hbegins.invariant hfirst hround
      exact ⟨hcurrent, htries.spec hcurrent⟩
  | @annealing budget start moves cooling n _ _ _ state σ' hbegins htries =>
      have hstart : Ends (SetCover.annealing inst settings budget start moves cooling).start
          anyFault (fun s _ => Annealing.State.Covers inst s) σ :=
        Annealing.ends_start settings budget cooling hfirst fun _ _ => trivial
      have hround : ∀ n (s : Annealing.State) σ, s.Covers inst →
          Ends ((SetCover.annealing inst settings budget start moves cooling).rounds.round n s)
            anyFault (fun s' _ => Annealing.State.Covers inst s') σ :=
        fun n s σ hs => Annealing.ends_round settings.swapAttempts start moves cooling n hs
      have hstate : state.Covers inst := hbegins.invariant hstart hround
      exact htries.spec hstate

/-- **What is accepted outright.** Whenever a run of variable neighbourhood search or of annealing
looks at a neighbour whose difference to the current selection is a signed number of 64 bits, it
accepts it outright if and only if that difference is not positive. Provided that all subsets
together cost less than `2 ^ 64`, these are the neighbours that cost no more if and only if the
neighbour and the current selection have the same subsets that cost `2 ^ 63` or more. -/
theorem accepts_outright_iff (htotal : inst.totalCost < 2 ^ 64)
    (hpair : call.Considers inst settings clock σ current s outright)
    (hlow : -2 ^ 63 ≤ s.delta current) (hhigh : s.delta current < 2 ^ 63) :
    (outright = true ↔ s.delta current ≤ 0) ∧
      ((s.delta current ≤ 0 ↔ s.cost ≤ current.cost) ↔
        ∀ a, 2 ^ 63 ≤ inst.costAt a → (a ∈ s.ids ↔ a ∈ current.ids)) := by
  obtain ⟨hcurrent, hneighbour, houtright⟩ := hpair.spec
  have hs := hneighbour.isCover hcurrent
  refine ⟨houtright, ?_⟩
  rw [Selection.delta_law_iff (Nat.lt_of_le_of_lt hs.cost_le htotal)
    (Nat.lt_of_le_of_lt hcurrent.cost_le htotal)]
  exact Selection.large_iff_iff hs.consistent hcurrent.consistent hneighbour.oneSwapApart htotal
    hlow hhigh

/-- A run on two elements, whose costs are all read with a plus. -/
theorem accepts_outright_of_two_elements :
    ∃ inst current s outright, Instance.build 2 4 [7, 3, 3, 1] [[0, 1, 2], [0, 1, 3]] = .ok inst ∧
      (∀ clock, (Call.neighbourhoods 5).Considers inst {} clock
        ⟨.ofStream (.ofList [3, 1, 4]), []⟩ current s outright) ∧
      (outright = true ↔ s.delta current ≤ 0) ∧
      ((s.delta current ≤ 0 ↔ s.cost ≤ current.cost) ↔
        ∀ a, 2 ^ 63 ≤ inst.costAt a → (a ∈ s.ids ↔ a ∈ current.ids)) := by
  obtain ⟨inst, hbuild, hcoverable, hpos, hcost⟩ :
      ∃ inst, Instance.build 2 4 [7, 3, 3, 1] [[0, 1, 2], [0, 1, 3]] = .ok inst ∧
        inst.requireCoverable = .ok () ∧ 1 ≤ inst.subsetCount ∧ inst.totalCost < 2 ^ 63 - 1 :=
    ⟨_, rfl, by with_unfolding_all rfl, by decide, by decide +kernel⟩
  have hcosts := Instance.costAt_lt hcost
  obtain ⟨first, hgreedy, htotal⟩ := cheapestFirst_total hcoverable hpos hcosts
  obtain ⟨greedy, σ₀, hrun₀, rfl⟩ :=
    (htotal noFault ⟨.ofStream (.ofList [3, 1, 4]), []⟩).exists_run
  obtain ⟨s, σ₁, hrun, hneighbour, _⟩ :=
    (ends_move (E := noFault) (σ := σ₀) .random 1000 hgreedy).exists_run
  have hle := (hneighbour.isCover hgreedy).cost_le
  have hle' := hgreedy.cost_le
  have hpair : ∃ outright, ∀ clock, (Call.neighbourhoods 5).Considers inst {} clock
      ⟨.ofStream (.ofList [3, 1, 4]), []⟩ greedy s outright := by
    by_cases hdelta : s.delta greedy ≤ 0
    · exact ⟨true, fun clock => .neighbourhoods ⟨greedy, σ₀, hrun₀, .now rfl rfl⟩
        (.taken hrun hdelta)⟩
    · exact ⟨false, fun clock => .neighbourhoods ⟨greedy, σ₀, hrun₀, .now rfl rfl⟩
        (.passed hrun (Int.not_le.mp hdelta))⟩
  obtain ⟨outright, hpair⟩ := hpair
  have hdelta : s.delta greedy = s.cost - greedy.cost := by
    rw [Selection.delta, signed_eq (by omega), signed_eq (by omega)]
  exact ⟨inst, greedy, s, outright, hbuild, hpair,
    accepts_outright_iff (by omega) (hpair id) (by omega) (by omega)⟩

end Call

/-! ## A cheaper neighbour that is turned down -/

/-- From a cover by one subset, two words decide the first random swap. -/
theorem drawnSwaps_of_words {ids : IdSet} {out into left : Nat} {source : Source}
    (hids : ids.toList = [out])
    (hout : accepts 1 (source.stream.word source.drawn) = true)
    (hinto : accepts inst.subsetCount (source.stream.word (source.drawn + 1)) = true)
    (hscaled : scaled inst.subsetCount (source.stream.word (source.drawn + 1)) = into)
    (hpos : 0 < inst.subsetCount) (hcovers : inst.covers (swap ids out into) = true) :
    drawnSwaps inst ids (left + 1) source = [(out, into)] := by
  have hlength : 0 < ids.toList.length := by simp [hids]
  have hmember : ∀ i : Fin ids.toList.length, ids.toList.get i = out := by
    intro i
    have honly : ∀ a ∈ ids.toList, a = out := by simp [hids]
    exact honly _ (List.get_mem ..)
  have hnext : ∀ (bound : Nat) (hpos : 0 < bound), bound = 1 →
      (source.below bound hpos).2 = .ofPlace source.stream (source.drawn + 1) := by
    intro bound hpos hbound
    subst hbound
    exact (Source.below_of_accepts hpos hout).2
  have hdrawn : ((Source.ofPlace source.stream (source.drawn + 1)).below inst.subsetCount
      hpos).1.val = into := by
    have hready : accepts inst.subsetCount
        ((Source.ofPlace source.stream (source.drawn + 1)).stream.word
          (Source.ofPlace source.stream (source.drawn + 1)).drawn) = true := by
      rw [Source.ofPlace_stream, Source.ofPlace_drawn]
      exact hinto
    rw [(Source.below_of_accepts hpos hready).1, Source.ofPlace_stream, Source.ofPlace_drawn]
    exact hscaled
  rw [drawnSwaps, triedSwaps, swapsToCome, dif_pos hlength, dif_pos hpos]
  dsimp only
  rw [hmember, hnext _ hlength (by simp [hids]), hdrawn]
  have hfirst : ∀ after, (⟨out, into, after⟩ : DrawnSwap).covers inst ids = true :=
    fun _ => hcovers
  rw [List.takeWhile_cons_of_neg (by simp [hfirst]), List.find?_cons_of_pos (hfirst _)]
  rfl

/-- A stream that starts with one word five times, which stands for one in draws below three. All
its words stand for a draw of one. -/
theorem word_of_constants :
    (∀ n, n ≤ 4 → (Stream.ofList (List.replicate 5 6917529027641081856)).word n =
      6917529027641081856) ∧
    ∀ i, accepts 1 ((Stream.ofList (List.replicate 5 6917529027641081856)).word i) = true := by
  simp only [Stream.word_ofList, List.getElem?_replicate]
  constructor
  · intro n hn
    rw [if_pos (by omega)]
    rfl
  · intro i
    split
    · decide
    · exact accepts_zero 1

/-- The greedy construction takes the first subset, whose cost is read with a minus. The second
one costs nothing and covers as well, but it is turned down. -/
theorem Call.turns_down_cheaper_of_dear_start :
    ∃ inst, Instance.build 1 3 [2 ^ 63 + 1, 0, 0] [[0, 1]] = .ok inst ∧
      inst.requireCoverable = .ok () ∧ inst.totalCost < 2 ^ 64 ∧
      ∃ σ current s, (∀ clock, (Call.neighbourhoods 3600000).Considers inst { rounds := some 1 }
          clock σ current s false) ∧
        -2 ^ 63 ≤ s.delta current ∧ s.delta current < 2 ^ 63 ∧ s.cost ≤ current.cost ∧
        ¬ s.delta current ≤ 0 := by
  obtain ⟨inst, hbuild, hcoverable, hcount, htotal, hplain, hgreedy, hother, hcovers⟩ :
      ∃ inst, Instance.build 1 3 [2 ^ 63 + 1, 0, 0] [[0, 1]] = .ok inst ∧
        inst.requireCoverable = .ok () ∧ inst.subsetCount = 3 ∧ inst.totalCost < 2 ^ 64 ∧
        Greedy.plain inst = some (.ofList [0]) ∧ inst.weight [0] = 2 ^ 63 + 1 ∧
        inst.weight [1] = 0 ∧ inst.covers (.ofList [1]) = true :=
    ⟨_, rfl, by with_unfolding_all rfl, rfl, by decide +kernel,
      Greedy.plain_of_pairwise (by with_unfolding_all decide) (by with_unfolding_all rfl), rfl,
      rfl, by with_unfolding_all rfl⟩
  have hpos : 0 < inst.subsetCount := by omega
  have hids : ∀ id ∈ IdSet.ofList [0], id < inst.subsetCount := by
    rw [hcount]
    decide
  obtain ⟨hword, haccepts⟩ := word_of_constants
  generalize Stream.ofList (List.replicate 5 6917529027641081856) = stream at hword haccepts
  obtain ⟨greedy, σ₀, hrun₀, hsame, n, hn, hstream, hdrawn⟩ :=
    ((ends_cheapestFirst (E := noFault) hcoverable hpos hplain hids).also
      (ends_cheapestFirst_later (σ := ⟨.ofStream stream, []⟩) haccepts)).exists_run
  have hnext : σ₀.source.stream.word (σ₀.source.drawn + 1) = 6917529027641081856 := by
    rw [hstream, hdrawn]
    apply hword
    show 0 + n + 1 ≤ 4
    omega
  have htried : drawnSwaps inst (.ofList [0]) 1000 σ₀.source = [(0, 1)] := by
    apply drawnSwaps_of_words rfl
    · exact hstream ▸ haccepts _
    · rw [hnext, hcount]
      decide
    · rw [hnext, hcount]
      decide
    · exact hpos
    · exact hcovers
  have hids' : ∀ id ∈ greedy.ids, id < inst.subsetCount := hsame ▸ hids
  obtain ⟨s, σ₁, hrun, hchosen⟩ := (ends_randomSwap_chosen (E := noFault) 1000 hids').exists_run
  have hcost : greedy.cost = 2 ^ 63 + 1 := hsame ▸ hgreedy
  have hcost' : s.cost = 0 := by
    rw [hsame, htried] at hchosen
    rcases hchosen with ⟨_, hnone⟩ | ⟨p, hp, _, hof⟩
    · have hfalse := hnone _ (List.mem_singleton_self _)
      exact absurd hcovers (Bool.eq_false_iff.mp hfalse)
    · rw [List.mem_singleton.mp hp] at hof
      obtain ⟨hconsistent, hids⟩ := Selection.of_spec hof
      rw [hconsistent.cost_eq, hids]
      exact hother
  have hdelta : s.delta greedy = 2 ^ 63 - 1 := by
    rw [Selection.delta, hcost, hcost']
    decide
  refine ⟨inst, hbuild, hcoverable, htotal, ⟨.ofStream stream, []⟩, greedy, s, ?_, by omega,
    by omega, by omega, by omega⟩
  intro clock
  exact .neighbourhoods ⟨greedy, σ₀, hrun₀, .now rfl rfl⟩ (.passed hrun (by omega))

end SetCover
