import SetCover.Search.Basic

/-!
# Outcomes of searches

`Ends x E Q σ` says how the search `x` ends when it starts in the session `σ`: with a result and a
session that satisfy `Q`, or with a fault and a session that satisfy `E`. With `E := noFault` this
is total correctness, with `E := anyFault` it is partial correctness.

* `ends_bind`, `ends_ite`, `ends_foldlM`, `ends_mapM`: sequences of searches, and choices between
  them.
* `ends_note_bind`, `ends_word_bind`, `ends_below_bind`: entries and draws, and what comes after.
* `Ends.exists_run`: a search that cannot fail has a result.
-/

namespace SetCover.Search

/-- From `σ` the search ends with a result and a session that satisfy `Q`, or with a fault and a
session that satisfy `E`. -/
def Ends {α : Type} (x : Search α) (E : Fault → Session → Prop) (Q : α → Session → Prop)
    (σ : Session) : Prop :=
  match x.run σ with
  | .ok a σ' => Q a σ'
  | .error fault σ' => E fault σ'

/-- No fault at all. -/
def noFault : Fault → Session → Prop := fun _ _ => False

/-- Any fault. -/
def anyFault : Fault → Session → Prop := fun _ _ => True

variable {α β : Type} {E : Fault → Session → Prop} {Q : α → Session → Prop} {σ : Session}

/-! ## Reading outcomes -/

theorem Ends.of_run {x : Search α} (h : Ends x E Q σ) {a : α} {σ' : Session}
    (hrun : x.run σ = .ok a σ') : Q a σ' := by
  unfold Ends at h
  rw [hrun] at h
  exact h

theorem Ends.of_run_error {x : Search α} (h : Ends x E Q σ) {fault : Fault} {σ' : Session}
    (hrun : x.run σ = .error fault σ') : E fault σ' := by
  unfold Ends at h
  rw [hrun] at h
  exact h

theorem Ends.exists_run {x : Search α} (h : Ends x noFault Q σ) :
    ∃ a σ', x.run σ = .ok a σ' ∧ Q a σ' := by
  unfold Ends at h
  cases hrun : x.run σ with
  | ok a σ' =>
      rw [hrun] at h
      exact ⟨a, σ', rfl, h⟩
  | error fault σ' =>
      rw [hrun] at h
      exact h.elim

theorem ends_of_run {x : Search α} {a : α} {σ' : Session} (hrun : x.run σ = .ok a σ')
    (h : Q a σ') : Ends x E Q σ := by
  unfold Ends
  rw [hrun]
  exact h

theorem Ends.mono {x : Search α} {E' : Fault → Session → Prop} {Q' : α → Session → Prop}
    (h : Ends x E Q σ) (hE : ∀ fault σ', E fault σ' → E' fault σ')
    (hQ : ∀ a σ', Q a σ' → Q' a σ') : Ends x E' Q' σ := by
  unfold Ends at h ⊢
  cases hrun : x.run σ with
  | ok a σ' =>
      rw [hrun] at h
      exact hQ a σ' h
  | error fault σ' =>
      rw [hrun] at h
      exact hE fault σ' h

theorem Ends.weaken {x : Search α} {Q' : α → Session → Prop} (h : Ends x E Q σ)
    (hQ : ∀ a σ', Q a σ' → Q' a σ') : Ends x E Q' σ :=
  h.mono (fun _ _ h => h) hQ

/-- The outcome itself, beside what is known of it. -/
theorem Ends.with_run {x : Search α} (h : Ends x E Q σ) :
    Ends x E (fun a σ' => Q a σ' ∧ x.run σ = .ok a σ') σ := by
  unfold Ends at h ⊢
  cases hrun : x.run σ with
  | ok a σ' =>
      rw [hrun] at h
      exact ⟨h, rfl⟩
  | error fault σ' =>
      rw [hrun] at h
      exact h

/-- What holds of every result, beside what else is known of the end. -/
theorem Ends.also {x : Search α} {Q' : α → Session → Prop} (h : Ends x E Q σ)
    (h' : Ends x anyFault Q' σ) : Ends x E (fun a σ' => Q a σ' ∧ Q' a σ') σ := by
  unfold Ends at h h' ⊢
  cases hrun : x.run σ with
  | ok a σ' =>
      rw [hrun] at h h'
      exact ⟨h, h'⟩
  | error fault σ' =>
      rw [hrun] at h
      exact h

theorem ends_any (x : Search α) : Ends x anyFault (fun _ _ => True) σ := by
  unfold Ends
  cases x.run σ with
  | ok a σ' => exact trivial
  | error fault σ' => exact trivial

/-! ## Sequences -/

theorem ends_pure {a : α} (h : Q a σ) : Ends (pure a) E Q σ := h

theorem ends_throw {fault : Fault} (h : E fault σ) : Ends (throw fault : Search α) E Q σ := h

theorem run_bind_ok {x : Search β} {f : β → Search α} {b : β} {σ' : Session}
    (hrun : x.run σ = .ok b σ') : (x >>= f).run σ = (f b).run σ' := by
  have hrun : x σ = .ok b σ' := hrun
  show EStateM.bind x f σ = f b σ'
  rw [EStateM.bind, hrun]

theorem run_bind_error {x : Search β} {f : β → Search α} {fault : Fault} {σ' : Session}
    (hrun : x.run σ = .error fault σ') : (x >>= f).run σ = .error fault σ' := by
  have hrun : x σ = .error fault σ' := hrun
  show EStateM.bind x f σ = .error fault σ'
  rw [EStateM.bind, hrun]

theorem exists_of_run_bind {x : Search β} {f : β → Search α} {a : α} {σ' : Session}
    (hrun : (x >>= f).run σ = .ok a σ') :
    ∃ b σ₁, x.run σ = .ok b σ₁ ∧ (f b).run σ₁ = .ok a σ' := by
  cases hx : x.run σ with
  | ok b σ₁ =>
      rw [run_bind_ok hx] at hrun
      exact ⟨b, σ₁, rfl, hrun⟩
  | error fault σ₁ =>
      rw [run_bind_error hx] at hrun
      cases hrun

theorem run_ofExcept_ok {x : Except Fault β} {f : β → Search α} {b : β} (hx : x = .ok b) :
    (Search.ofExcept x >>= f).run σ = (f b).run σ := by
  subst hx
  exact run_bind_ok rfl

theorem run_ofExcept_error {x : Except Fault β} {f : β → Search α} {fault : Fault}
    (hx : x = .error fault) : (Search.ofExcept x >>= f).run σ = .error fault σ := by
  subst hx
  exact run_bind_error rfl

theorem ends_bind {x : Search β} {f : β → Search α} {R : β → Session → Prop}
    (hx : Ends x E R σ) (hf : ∀ b σ', R b σ' → Ends (f b) E Q σ') : Ends (x >>= f) E Q σ := by
  unfold Ends at hx ⊢
  cases hrun : x.run σ with
  | ok b σ' =>
      rw [hrun] at hx
      rw [run_bind_ok hrun]
      exact hf b σ' hx
  | error fault σ' =>
      rw [hrun] at hx
      rw [run_bind_error hrun]
      exact hx

/-- Two searches that go on from what is known of the first part in the same way run alike. -/
theorem run_bind_congr {x : Search β} {f g : β → Search α} {R : β → Session → Prop}
    (hx : Ends x anyFault R σ) (hfg : ∀ b σ', R b σ' → (f b).run σ' = (g b).run σ') :
    (x >>= f).run σ = (x >>= g).run σ := by
  cases hrun : x.run σ with
  | ok b σ' =>
      rw [run_bind_ok hrun, run_bind_ok hrun]
      exact hfg b σ' (hx.of_run hrun)
  | error fault σ' => rw [run_bind_error hrun, run_bind_error hrun]

theorem ends_ofExcept {x : Except Fault α} (hok : ∀ a, x = .ok a → Q a σ)
    (herror : ∀ fault, x = .error fault → E fault σ) : Ends (Search.ofExcept x) E Q σ := by
  cases x with
  | ok a => exact ends_pure (hok a rfl)
  | error fault => exact ends_throw (herror fault rfl)

theorem ends_ofExcept_ok {x : Except Fault α} {a : α} (hx : x = .ok a) (h : Q a σ) :
    Ends (Search.ofExcept x) E Q σ := by
  subst hx
  exact ends_pure h

theorem ends_ite {c : Prop} [Decidable c] {x y : Search α} (hx : c → Ends x E Q σ)
    (hy : ¬ c → Ends y E Q σ) : Ends (if c then x else y) E Q σ := by
  split
  · next h => exact hx h
  · next h => exact hy h

theorem ends_ofExcept_bind {x : Except Fault β} {f : β → Search α} {b : β} (hx : x = .ok b)
    (h : Ends (f b) E Q σ) : Ends (Search.ofExcept x >>= f) E Q σ := by
  refine ends_bind (R := fun c σ' => c = b ∧ σ' = σ) (ends_ofExcept_ok hx ⟨rfl, rfl⟩) ?_
  rintro _ _ ⟨rfl, rfl⟩
  exact h

/-- An invariant that every step of a fold keeps holds at its end. -/
theorem ends_foldlM {γ : Type} (I : γ → Session → Prop) (l : List β) (step : γ → β → Search γ)
    {init : γ} (hinit : I init σ)
    (hstep : ∀ c, ∀ b ∈ l, ∀ σ', I c σ' → Ends (step c b) E I σ') :
    Ends (l.foldlM step init) E I σ := by
  induction l generalizing init σ with
  | nil => exact ends_pure hinit
  | cons b l ih =>
      rw [List.foldlM_cons]
      refine ends_bind (hstep init b (by simp) σ hinit) fun c σ' hc => ?_
      exact ih hc fun c b hb => hstep c b (List.mem_cons_of_mem _ hb)

/-- What every call keeps holds after all of them. -/
theorem ends_mapM_keeps (I : Session → Prop) (l : List β) (f : β → Search α) (hinit : I σ)
    (hf : ∀ b ∈ l, ∀ σ, I σ → Ends (f b) E (fun _ => I) σ) :
    Ends (l.mapM f) E (fun _ => I) σ := by
  induction l generalizing σ with
  | nil => exact ends_pure hinit
  | cons b l ih =>
      rw [List.mapM_cons]
      refine ends_bind (hf b (by simp) σ hinit) fun a σ ha => ?_
      refine ends_bind (ih ha fun b hb => hf b (List.mem_cons_of_mem _ hb)) fun as σ has => ?_
      exact ends_pure has

/-- What every element of a list becomes, place by place. -/
theorem ends_mapM (R : β → α → Prop) (l : List β) (f : β → Search α)
    (hf : ∀ b ∈ l, ∀ σ, Ends (f b) E (fun a _ => R b a) σ) :
    Ends (l.mapM f) E (fun as _ => as.length = l.length ∧
      ∀ (i : Nat) (b : β) (a : α), l[i]? = some b → as[i]? = some a → R b a) σ := by
  induction l generalizing σ with
  | nil => exact ends_pure ⟨rfl, by simp⟩
  | cons b l ih =>
      rw [List.mapM_cons]
      refine ends_bind (hf b (by simp) σ) fun a σ ha => ?_
      refine ends_bind (ih fun b hb => hf b (List.mem_cons_of_mem _ hb)) ?_
      intro as σ ⟨hlength, has⟩
      apply ends_pure
      refine ⟨by simp [hlength], ?_⟩
      intro i b' a' hb' ha'
      cases i with
      | zero =>
          cases hb'
          cases ha'
          exact ha
      | succ i => exact has i b' a' hb' ha'

/-! ## Draws and entries -/

theorem ends_modifyGet {f : Session → α × Session} (h : Q (f σ).1 (f σ).2) :
    Ends (modifyGet f) E Q σ := h

theorem ends_note {event : Event} {Q : Unit → Session → Prop}
    (h : Q () { σ with journal := event :: σ.journal }) : Ends (note event) E Q σ := h

theorem ends_word {Q : UInt64 → Session → Prop}
    (h : Q σ.source.next.1 { σ with source := σ.source.next.2 }) : Ends word E Q σ := h

theorem ends_note_bind {event : Event} {f : Unit → Search α}
    (h : Ends (f ()) E Q { σ with journal := event :: σ.journal }) :
    Ends (note event >>= f) E Q σ := by
  refine ends_bind (R := fun _ σ' => σ' = { σ with journal := event :: σ.journal })
    (ends_note rfl) ?_
  rintro _ _ rfl
  exact h

theorem ends_word_bind {f : UInt64 → Search α}
    (h : ∀ w source, Ends (f w) E Q { σ with source }) : Ends (word >>= f) E Q σ := by
  refine ends_bind (R := fun _ σ' => ∃ source, σ' = { σ with source }) (ends_word ⟨_, rfl⟩) ?_
  rintro w _ ⟨source, rfl⟩
  exact h w source

/-- A draw takes its number from the source. -/
theorem ends_below_run_bind {bound : Nat} {f : Fin bound → Search α} (hpos : 0 < bound)
    (h : Ends (f (σ.source.below bound hpos).1) E Q
      { σ with source := (σ.source.below bound hpos).2 }) : Ends (below bound >>= f) E Q σ := by
  unfold below
  rw [dif_pos hpos]
  exact h

theorem ends_below_bind {bound : Nat} {f : Fin bound → Search α} (hpos : 0 < bound)
    (h : ∀ n source, Ends (f n) E Q { σ with source }) : Ends (below bound >>= f) E Q σ :=
  ends_below_run_bind hpos (h _ _)

theorem ends_favouredBy {p : Float} {Q : Bool → Session → Prop}
    (hbad : Chance.ofFloat? p = none → E (.breach .badChance) σ) (h : ∀ b σ', Q b σ') :
    Ends (favouredBy p) E Q σ := by
  unfold favouredBy
  cases hchance : Chance.ofFloat? p with
  | none => exact ends_throw (hbad hchance)
  | some chance =>
      unfold favoured
      exact ends_ite (fun _ => ends_pure (h _ _)) fun _ =>
        ends_word_bind fun _ _ => ends_pure (h _ _)

-- The rules above are the only way into `Ends`, so that no tactic starts to evaluate a search.
attribute [irreducible] Ends

end SetCover.Search
