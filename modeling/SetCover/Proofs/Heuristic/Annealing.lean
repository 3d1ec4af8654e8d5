import SetCover.Heuristic.Annealing
import SetCover.Proofs.Greedy.Construction
import SetCover.Proofs.Heuristic.Trace
import SetCover.Proofs.Search.Writing
import SetCover.Proofs.Swap.Trials

/-!
# Moves of annealing

A move looks at one random swap of the current selection and takes it or turns it down. Whatever
else holds of a move or of a round of them follows from this, so it is said once. Annealing only
moves by random swaps, so the current selection and the best one are covers at every temperature,
whatever is accepted.

* `Annealing.Moved`, `ends_move_moved`: all that a move can do.
* `Annealing.MovedTimes`, `ends_moves_moved`: so many moves, one after another.
* `Annealing.State.Covers`, `ends_start`, `ends_round`: what the start has and every round keeps.
* `ends_annealing`: the answer is a cover.
-/

namespace SetCover

open Search

variable {inst : Instance} {E : Fault → Session → Prop} {σ σ₁ σ' : Session}

namespace Annealing

/-! ## What a move does -/

/-- An entry that is written beside the one on the neighbour: that the attempts at a swap are used
up, or that there is a new best selection. -/
def IsAside (event : Event) : Prop :=
  IsExhaustion event ∨ ∃ step cost, event = .coolingImproved step cost

/-- What a move does, from the state `s` and the session `σ`. It runs one random swap and notes
once what becomes of the neighbour. -/
inductive Moved (inst : Instance) (attempts : Nat) (s : State) (σ : Session) :
    State → Session → Prop
  /-- The neighbour is taken; a word is only drawn for that if the difference is positive. -/
  | taken {neighbour best : Selection} {σ₁ σ' : Session} :
      (randomSwap inst attempts s.current).run σ = .ok neighbour σ₁ →
      best = (if neighbour.cost < s.best.cost then neighbour else s.best) →
      σ'.source = (if neighbour.delta s.current ≤ 0 then σ₁.source else σ₁.source.next.2) →
      AddedOne IsAside (.moveAccepted s.temperature (neighbour.delta s.current)) σ σ' →
      Moved inst attempts s σ { s with current := neighbour, best := best } σ'
  /-- The neighbour is turned down, after a word was drawn. -/
  | refused {neighbour : Selection} {σ₁ σ' : Session} :
      (randomSwap inst attempts s.current).run σ = .ok neighbour σ₁ →
      0 < neighbour.delta s.current → σ'.source = σ₁.source.next.2 →
      AddedOne IsAside (.moveRejected (neighbour.delta s.current)) σ σ' →
      Moved inst attempts s σ s σ'

/-- So many moves, one after another. -/
inductive MovedTimes (inst : Instance) (attempts : Nat) (s : State) (σ : Session) :
    Nat → State → Session → Prop
  | none : MovedTimes inst attempts s σ 0 s σ
  | more {k : Nat} {s₁ s' : State} {σ₁ σ' : Session} : MovedTimes inst attempts s σ k s₁ σ₁ →
      Moved inst attempts s₁ σ₁ s' σ' → MovedTimes inst attempts s σ (k + 1) s' σ'

theorem ends_unit :
    Ends Search.unit E (fun _ σ' => σ' = { σ with source := σ.source.next.2 }) σ := by
  unfold Search.unit
  refine ends_bind (R := fun _ σ' => σ' = { σ with source := σ.source.next.2 }) (ends_word rfl) ?_
  exact fun _ _ hnext => ends_pure hnext

theorem ends_accepted_drawing (temperature : Float) (delta : Int) :
    Ends (accepted temperature delta) E (fun taken σ' =>
      σ' = (if delta ≤ 0 then σ else { σ with source := σ.source.next.2 }) ∧
        (delta ≤ 0 → taken = true)) σ := by
  unfold accepted
  refine ends_ite (fun hle => ?_) fun hgt => ?_
  · exact ends_pure ⟨(if_pos hle).symm, fun _ => rfl⟩
  · refine ends_bind ends_unit fun _ σ' hnext => ?_
    exact ends_pure ⟨hnext.trans (if_neg hgt).symm, fun hle => absurd hle hgt⟩

variable {attempts count : Nat} {s s' : State}

/-- What every move keeps holds after several of them. -/
theorem MovedTimes.invariant {I : State → Session → Prop}
    (h : MovedTimes inst attempts s σ count s' σ') (hs : I s σ)
    (hmove : ∀ s σ s' σ', I s σ → Moved inst attempts s σ s' σ' → I s' σ') : I s' σ' := by
  induction h with
  | none => exact hs
  | more _ hmoved ih => exact hmove _ _ _ _ ih hmoved

/-- If the random swap does not fail, the move does what it can do. -/
theorem ends_move_moved (step : Nat)
    (hswap : Ends (randomSwap inst attempts s.current) E (fun _ _ => True) σ) :
    Ends (move inst attempts step s) E (Moved inst attempts s σ) σ := by
  have hwrites : Writes (randomSwap inst attempts s.current) IsAside :=
    (writes_randomSwap attempts).mono fun _ => Or.inl
  unfold move
  refine ends_bind (hswap.writing hwrites).with_run ?_
  rintro neighbour σ₁ ⟨⟨-, hadded⟩, hrun⟩
  refine ends_bind (ends_accepted_drawing s.temperature _) ?_
  rintro taken σ₂ ⟨hnext, htaken⟩
  have hsource : σ₂.source = if neighbour.delta s.current ≤ 0 then σ₁.source
      else σ₁.source.next.2 := by
    rw [hnext]
    split <;> rfl
  have hjournal : σ₂.journal = σ₁.journal := by
    rw [hnext]
    split <;> rfl
  have hbefore : Added IsAside σ σ₂ := hadded.trans (.of_journal_eq hjournal)
  refine ends_ite (fun _ => ?_) fun hrefused => ?_
  · refine ends_note_bind (ends_ite (fun hlt => ?_) fun hge => ?_)
    · exact ends_note_bind (ends_pure (.taken hrun (if_pos hlt).symm hsource
        ⟨σ₂, _, hbefore, rfl, added_note (Or.inr ⟨_, _, rfl⟩)⟩))
    · exact ends_pure (.taken hrun (if_neg hge).symm hsource
        ⟨σ₂, _, hbefore, rfl, .of_journal_eq rfl⟩)
  · have hlt : 0 < neighbour.delta s.current := Int.not_le.mp fun hle => hrefused (htaken hle)
    rw [if_neg (Int.not_le.mpr hlt)] at hsource
    exact ends_note_bind (ends_pure
      (.refused hrun hlt hsource ⟨σ₂, _, hbefore, rfl, .of_journal_eq rfl⟩))

/-- If an invariant of the moves rules out that a random swap fails, the moves come one after
another. -/
theorem ends_moves_moved {I : State → Prop}
    (hswap : ∀ s σ, I s → Ends (randomSwap inst attempts s.current) E (fun _ _ => True) σ)
    (hkeep : ∀ s σ s' σ', I s → Moved inst attempts s σ s' σ' → I s') (step : Nat) (hs : I s) :
    Ends (moves inst attempts step count s) E (MovedTimes inst attempts s σ count) σ := by
  have hgo : ∀ done s₁ σ₁, I s₁ → MovedTimes inst attempts s σ done s₁ σ₁ →
      Ends (moves inst attempts step count s₁) E
        (MovedTimes inst attempts s σ (done + count)) σ₁ := by
    induction count with
    | zero => exact fun done s₁ σ₁ _ hmoved => ends_pure hmoved
    | succ count ih =>
        intro done s₁ σ₁ hs₁ hmoved
        rw [moves]
        refine ends_bind (ends_move_moved step (hswap s₁ σ₁ hs₁)) fun s₂ σ₂ hmove => ?_
        rw [← Nat.succ_add_eq_add_succ]
        exact ih (done + 1) s₂ σ₂ (hkeep s₁ σ₁ s₂ σ₂ hs₁ hmove) (.more hmoved hmove)
  have hmoves := hgo 0 s σ hs .none
  rwa [Nat.zero_add] at hmoves

/-- After the moves of a round the next temperature is asked for. -/
theorem ends_round_of_moves {start : Float} {cooling : Float → Nat → Float} {step : Nat}
    {Q : State → Session → Prop}
    (h : Ends (moves inst attempts step count s) E (fun s' σ' =>
      Q { s' with temperature := cooling start (stepCount (step + 1)) }
        { σ' with
          journal := .temperatureAsked start (stepCount (step + 1)) :: σ'.journal }) σ) :
    Ends (round inst attempts start count cooling step s) E Q σ := by
  unfold round
  exact ends_bind h fun _ _ hs' => ends_note_bind (ends_pure hs')

/-! ## Covers -/

/-- The current selection and the best one are covers. -/
structure State.Covers (inst : Instance) (s : State) : Prop where
  current : s.current.IsCover inst
  best : s.best.IsCover inst

theorem isNeighbour_of_run {current neighbour : Selection} (hcurrent : current.IsCover inst)
    (hrun : (randomSwap inst attempts current).run σ = .ok neighbour σ₁) :
    neighbour.IsNeighbour inst current :=
  (ends_randomSwap (E := noFault) attempts hcurrent.consistent.ids_lt).of_run hrun

theorem Moved.covers (h : Moved inst attempts s σ s' σ') (hs : s.Covers inst) :
    s'.Covers inst := by
  cases h with
  | taken hrun hbest =>
      have hcover := (isNeighbour_of_run hs.current hrun).isCover hs.current
      refine ⟨hcover, ?_⟩
      rw [hbest]
      split
      · exact hcover
      · exact hs.best
  | refused => exact hs

theorem ends_randomSwap_covers (hs : s.Covers inst) :
    Ends (randomSwap inst attempts s.current) E (fun _ _ => True) σ :=
  (ends_randomSwap attempts hs.current.consistent.ids_lt).weaken fun _ _ _ => trivial

theorem ends_move (attempts step : Nat) (hs : s.Covers inst) :
    Ends (move inst attempts step s) E (fun s' _ => s'.Covers inst) σ :=
  (ends_move_moved step (ends_randomSwap_covers hs)).weaken fun _ _ h => h.covers hs

/-- Between covers no random swap fails. -/
theorem ends_moves (attempts step count : Nat) (hs : s.Covers inst) :
    Ends (moves inst attempts step count s) E (fun s' σ' =>
      MovedTimes inst attempts s σ count s' σ' ∧ s'.Covers inst) σ := by
  refine (ends_moves_moved (fun _ _ => ends_randomSwap_covers)
    (fun _ _ _ _ hs h => h.covers hs) step hs).weaken fun s' σ' hmoved => ⟨hmoved, ?_⟩
  exact hmoved.invariant (I := fun s _ => s.Covers inst) hs fun _ _ _ _ hs h => h.covers hs

theorem ends_round (attempts : Nat) (start : Float) (count : Nat)
    (cooling : Float → Nat → Float) (step : Nat) (hs : s.Covers inst) :
    Ends (round inst attempts start count cooling step s) E (fun s' _ => s'.Covers inst) σ :=
  ends_round_of_moves ((ends_moves attempts step count hs).weaken fun _ _ h =>
    ⟨h.2.current, h.2.best⟩)

/-- A run starts from a cover. -/
theorem ends_start (settings : Settings) (budget : Nat) {start : Float} {count : Nat}
    (cooling : Float → Nat → Float)
    (hfirst : Ends (cheapestFirst inst) E (fun s _ => s.IsCover inst) σ)
    (hcheck : ∀ fault, check start count = .error fault → E fault σ) :
    Ends (annealing inst settings budget start count cooling).start E
      (fun s _ => s.Covers inst) σ := by
  refine ends_bind (ends_ofExcept (Q := fun _ σ' => σ' = σ) (fun _ _ => rfl) hcheck) ?_
  rintro _ _ rfl
  exact ends_bind hfirst fun s _ hs => ends_pure ⟨hs, hs⟩

end Annealing

/-- The answer of annealing is a cover, if the start is. It fails only where the start does. -/
theorem ends_annealing (settings : Settings) (budget : Nat) {start : Float} {count : Nat}
    (cooling : Float → Nat → Float) (clock : Clock)
    (hfirst : Ends (cheapestFirst inst) E (fun s _ => s.IsCover inst) σ)
    (hcheck : ∀ fault, Annealing.check start count = .error fault → E fault σ) :
    Ends ((annealing inst settings budget start count cooling).run clock) E
      (fun s _ => s.IsCover inst) σ :=
  ends_job (I := fun s : Annealing.State => s.Covers inst)
    (Annealing.ends_start settings budget cooling hfirst hcheck)
    (fun n _ _ hs => Annealing.ends_round settings.swapAttempts start count cooling n hs)
    (fun _ _ hs => ends_pure hs.best) clock

end SetCover
