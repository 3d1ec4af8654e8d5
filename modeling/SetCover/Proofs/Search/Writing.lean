import SetCover.Proofs.Search.Outcome

/-!
# What searches write down

A search only adds to the journal. `Writes x P` says that all entries added by `x` satisfy `P`,
whether it ends with a result or with a fault. No entry changes what a search does: `Blind x` says
that `x` ends alike whatever the journal has.

* `writes_bind`, `writes_mapM`, `writes_foldlM`: sequences of searches.
* `Ends.writing`: the journal at the end, beside the result.
* `AddedOne`: one entry among others that do not matter.
* `Blind.bind`, `blind_mapM`, `Blind.exists_run`: searches that do not read the journal.
-/

namespace SetCover.Search

/-- The journal of `σ'` is that of `σ` with some entries added, all of which satisfy `P`. -/
def Added (P : Event → Prop) (σ σ' : Session) : Prop :=
  ∃ new, σ'.journal = new ++ σ.journal ∧ ∀ event ∈ new, P event

/-- The search only writes entries that satisfy `P`. -/
def Writes {α : Type} (x : Search α) (P : Event → Prop) : Prop :=
  ∀ σ, Ends x (fun _ σ' => Added P σ σ') (fun _ σ' => Added P σ σ') σ

/-- The entries that no search writes. -/
def noEvent : Event → Prop := fun _ => False

variable {α β : Type} {P : Event → Prop} {σ σ' σ'' : Session}

theorem Added.of_journal_eq (h : σ'.journal = σ.journal) : Added P σ σ' :=
  ⟨[], by simpa using h, by simp⟩

theorem added_note {event : Event} (h : P event) :
    Added P σ { σ with journal := event :: σ.journal } :=
  ⟨[event], rfl, by simpa using h⟩

theorem Added.trans (h : Added P σ σ') (h' : Added P σ' σ'') : Added P σ σ'' := by
  obtain ⟨new, hnew, hP⟩ := h
  obtain ⟨new', hnew', hP'⟩ := h'
  refine ⟨new' ++ new, by rw [hnew', hnew, List.append_assoc], ?_⟩
  intro event hevent
  rcases List.mem_append.mp hevent with hin | hin
  · exact hP' event hin
  · exact hP event hin

/-- Added entries that a reading of the journal passes over do not change what is read. -/
theorem Added.filterMap_eq {f : Event → Option β} (h : Added P σ σ')
    (hf : ∀ event, P event → f event = none) :
    σ'.journal.filterMap f = σ.journal.filterMap f := by
  obtain ⟨new, hjournal, hnew⟩ := h
  have hnone : new.filterMap f = [] := by
    rw [List.filterMap_eq_nil_iff]
    intro event hevent
    exact hf event (hnew event hevent)
  rw [hjournal, List.filterMap_append, hnone, List.nil_append]

/-- The entry `event` is added, and beside it only entries that satisfy `P`. -/
def AddedOne (P : Event → Prop) (event : Event) (σ σ' : Session) : Prop :=
  ∃ σ₁ σ₂, Added P σ σ₁ ∧ σ₂.journal = event :: σ₁.journal ∧ Added P σ₂ σ'

/-- A reading of the journal that passes over the other entries only reads the one. -/
theorem AddedOne.filterMap_eq {event : Event} {f : Event → Option β}
    (h : AddedOne P event σ σ') (hf : ∀ event, P event → f event = none) :
    σ'.journal.filterMap f = (f event).toList ++ σ.journal.filterMap f := by
  obtain ⟨σ₁, σ₂, hbefore, hone, hafter⟩ := h
  rw [hafter.filterMap_eq hf, hone, List.filterMap_cons, hbefore.filterMap_eq hf]
  cases f event with
  | none => rfl
  | some b => rfl

theorem writes_pure (a : α) : Writes (pure a : Search α) P := fun _ =>
  ends_pure (Added.of_journal_eq rfl)

theorem writes_throw (fault : Fault) : Writes (throw fault : Search α) P := fun _ =>
  ends_throw (Added.of_journal_eq rfl)

theorem writes_bind {x : Search β} {f : β → Search α} (hx : Writes x P)
    (hf : ∀ b, Writes (f b) P) : Writes (x >>= f) P := by
  intro σ
  refine ends_bind (hx σ) fun b σ' hadded => ?_
  exact (hf b σ').mono (fun _ _ h => hadded.trans h) (fun _ _ h => hadded.trans h)

theorem Writes.mono {x : Search α} {P' : Event → Prop} (h : Writes x P)
    (hP : ∀ event, P event → P' event) : Writes x P' := by
  have hadded : ∀ {σ σ'}, Added P σ σ' → Added P' σ σ' := fun ⟨new, hnew, hall⟩ =>
    ⟨new, hnew, fun event hin => hP event (hall event hin)⟩
  exact fun σ => (h σ).mono (fun _ _ => hadded) (fun _ _ => hadded)

theorem writes_ofExcept (x : Except Fault α) : Writes (Search.ofExcept x) P := by
  cases x with
  | ok a => exact writes_pure a
  | error fault => exact writes_throw fault

theorem writes_note {event : Event} (h : P event) : Writes (note event) P := fun _ =>
  ends_note (added_note h)

theorem writes_below (bound : Nat) : Writes (below bound) P := by
  unfold below
  split
  · exact fun _ => ends_modifyGet (Added.of_journal_eq rfl)
  · exact writes_throw _

theorem writes_ite {c : Prop} [Decidable c] {x y : Search α} (hx : Writes x P)
    (hy : Writes y P) : Writes (if c then x else y) P := by
  split
  · exact hx
  · exact hy

theorem writes_mapM (l : List β) (f : β → Search α) (hf : ∀ b, Writes (f b) P) :
    Writes (l.mapM f) P := by
  induction l with
  | nil => exact writes_pure []
  | cons b l ih =>
      rw [List.mapM_cons]
      exact writes_bind (hf b) fun _ => writes_bind ih fun _ => writes_pure _

theorem writes_foldlM {γ : Type} (l : List β) (step : γ → β → Search γ)
    (hstep : ∀ c b, Writes (step c b) P) (init : γ) : Writes (l.foldlM step init) P := by
  induction l generalizing init with
  | nil => exact writes_pure init
  | cons b l ih =>
      rw [List.foldlM_cons]
      exact writes_bind (hstep init b) ih

/-- The journal at the end of a search, beside what else is known of its end. -/
theorem Ends.writing {x : Search α} {E : Fault → Session → Prop} {Q : α → Session → Prop}
    (h : Ends x E Q σ) (hwrites : Writes x P) :
    Ends x E (fun a σ' => Q a σ' ∧ Added P σ σ') σ := by
  have hwrites := hwrites σ
  unfold Ends at h hwrites ⊢
  cases hrun : x.run σ with
  | ok a σ' =>
      rw [hrun] at h hwrites
      exact ⟨h, hwrites⟩
  | error fault σ' =>
      rw [hrun] at h
      exact h

/-! ## Searches that do not read the journal -/

/-- How a search ends, less the journal. -/
def ending : EStateM.Result Fault Session α → Except Fault α × Source
  | .ok a σ => (.ok a, σ.source)
  | .error fault σ => (.error fault, σ.source)

/-- What is in the journal does not matter to the search. -/
def Blind (x : Search α) : Prop :=
  ∀ σ σ', σ.source = σ'.source → ending (x.run σ) = ending (x.run σ')

theorem blind_pure (a : α) : Blind (pure a : Search α) := fun _ _ h => congrArg (Prod.mk _) h

theorem blind_throw (fault : Fault) : Blind (throw fault : Search α) := fun _ _ h =>
  congrArg (Prod.mk _) h

theorem blind_note (event : Event) : Blind (note event) := fun _ _ h => congrArg (Prod.mk _) h

theorem blind_below (bound : Nat) : Blind (below bound) := by
  unfold below
  split
  · rintro ⟨source, journal⟩ ⟨_, journal'⟩ rfl
    rfl
  · exact blind_throw _

theorem blind_ofExcept (x : Except Fault α) : Blind (Search.ofExcept x) := by
  cases x with
  | ok a => exact blind_pure a
  | error fault => exact blind_throw fault

theorem Blind.bind {x : Search β} {f : β → Search α} (hx : Blind x) (hf : ∀ b, Blind (f b)) :
    Blind (x >>= f) := by
  intro σ σ' hsource
  have hsame := hx σ σ' hsource
  cases hrun : x.run σ with
  | ok b σ₁ =>
      cases hrun' : x.run σ' with
      | ok b' σ₁' =>
          rw [hrun, hrun', ending, ending, Prod.mk.injEq, Except.ok.injEq] at hsame
          obtain ⟨rfl, hsource⟩ := hsame
          rw [run_bind_ok hrun, run_bind_ok hrun']
          exact hf b σ₁ σ₁' hsource
      | error fault σ₁' =>
          rw [hrun, hrun'] at hsame
          cases hsame
  | error fault σ₁ =>
      cases hrun' : x.run σ' with
      | ok b' σ₁' =>
          rw [hrun, hrun'] at hsame
          cases hsame
      | error fault' σ₁' =>
          rw [hrun, hrun', ending, ending, Prod.mk.injEq, Except.error.injEq] at hsame
          obtain ⟨rfl, hsource⟩ := hsame
          rw [run_bind_error hrun, run_bind_error hrun', ending, ending, hsource]

theorem blind_ite {c : Prop} [Decidable c] {x y : Search α} (hx : Blind x) (hy : Blind y) :
    Blind (if c then x else y) := by
  split
  · exact hx
  · exact hy

theorem blind_mapM (l : List β) (f : β → Search α) (hf : ∀ b, Blind (f b)) : Blind (l.mapM f) := by
  induction l with
  | nil => exact blind_pure []
  | cons b l ih =>
      rw [List.mapM_cons]
      exact (hf b).bind fun _ => ih.bind fun _ => blind_pure _

/-- From a session with the same source, the search gives the same result. -/
theorem Blind.exists_run {x : Search α} (hx : Blind x) {a : α} (hrun : x.run σ = .ok a σ')
    (hsource : σ.source = σ''.source) :
    ∃ τ, x.run σ'' = .ok a τ ∧ σ'.source = τ.source := by
  have hsame := hx σ σ'' hsource
  rw [hrun] at hsame
  cases hrun' : x.run σ'' with
  | ok b τ =>
      rw [hrun', ending, ending, Prod.mk.injEq, Except.ok.injEq] at hsame
      obtain ⟨rfl, hsource⟩ := hsame
      exact ⟨τ, rfl, hsource⟩
  | error fault τ =>
      rw [hrun'] at hsame
      cases hsame

end SetCover.Search
