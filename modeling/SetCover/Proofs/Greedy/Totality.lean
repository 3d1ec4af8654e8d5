import SetCover.Proofs.Greedy.Dryness

/-!
# Constructions that do not fail

On a coverable instance a construction runs dry only where a subset is mistaken for a taken one.
Costs below the mark of taken subsets rule that out, and with them noise that leaves room within the
signed numbers of 64 bits.

* `Instance.NoiseFits`: how much noise there may be.
* `Greedy.ends_construct_total`: a construction that cannot fail.
* `ends_multistart_total`: the best of several constructions, if any is asked for.
* `exists_refusal_of_multistart`: impossible parameters are refused before a word is drawn.
-/

namespace SetCover

open Search

variable {inst : Instance} {size noise : Nat} {E : Fault → Session → Prop} {σ : Session}

/-- There is no noise since it reads as a negative number, or no price leaves the signed numbers of
64 bits. -/
def Instance.NoiseFits (inst : Instance) (noise : Nat) : Prop :=
  2 ^ 63 ≤ noise ∧ noise < 2 ^ 64 ∨ ∀ id < inst.subsetCount, inst.costAt id + noise < 2 ^ 63

theorem signed_nonpos {n : Nat} (h : 2 ^ 63 ≤ n) (h' : n < 2 ^ 64) : signed n ≤ 0 := by
  rw [signed_of_ge h h']
  omega

theorem Instance.NoiseFits.inRange (hcosts : ∀ id < inst.subsetCount, inst.costAt id < 2 ^ 63 - 1)
    (hnoise : inst.NoiseFits noise) : inst.NoiseInRange noise := by
  intro hpos s hs
  have hcost := hcosts s hs
  rcases hnoise with ⟨hlarge, hlt⟩ | hsmall
  · exact absurd (signed_nonpos hlarge hlt) (Int.not_le.mpr hpos)
  · have hsum := hsmall s hs
    rw [signed_eq (n := inst.costAt s) (by omega), signed_eq (n := noise) (by omega)]
    omega

/-- Costs below the mark of taken subsets leave every subset open. -/
theorem Instance.isOpen_of_lt {s : Nat} (hcost : inst.costAt s < 2 ^ 63 - 1) :
    inst.IsOpen noise s := by
  apply Or.inr
  rw [signed_eq (by omega)]
  unfold Greedy.takenMark
  omega

theorem Greedy.ends_construct_total (hcoverable : inst.requireCoverable = .ok ())
    (hcosts : ∀ id < inst.subsetCount, inst.costAt id < 2 ^ 63 - 1)
    (hnoise : inst.NoiseFits noise) (hsize : 1 ≤ size) (hle : size ≤ inst.subsetCount) :
    Ends (construct inst size noise) E (fun ids _ => ∀ id ∈ ids, id < inst.subsetCount) σ := by
  apply (ends_construct_open hcoverable (hnoise.inRange hcosts) hsize hle).mono
  · -- the subset that holds the element is open
    intro fault σ' ⟨e, _, he, hmissed, _⟩
    obtain ⟨s, hs⟩ := Instance.requireCoverable_iff.mp hcoverable e he
    have hcost := hcosts s (Instance.mem_holdersOf_lt hs)
    have hopen : inst.IsOpen noise s := Instance.isOpen_of_lt hcost
    exact absurd ⟨s, hs, hopen⟩ hmissed
  · intro ids _ ⟨_, hids⟩
    exact hids

/-! ## The best of several -/

theorem ends_multistartFrom_total
    (hconstructed : ∀ σ, Ends (constructed inst size noise) E (fun _ _ => True) σ)
    (left done : Nat) {best : Option Selection} (hsome : best.isSome = true ∨ 0 < left) :
    Ends (multistartFrom inst size noise left done best) E
      (fun best _ => best.isSome = true) σ := by
  induction left generalizing done best σ with
  | zero => exact ends_pure (hsome.resolve_right (Nat.lt_irrefl 0))
  | succ left ih =>
      rw [multistartFrom]
      refine ends_bind (hconstructed σ) fun s σ _ => ?_
      refine ends_ite (fun hany => ih (done + 1) (Or.inl ?_)) fun _ => ?_
      · cases best with
        | none => cases hany
        | some _ => rfl
      · exact ends_note_bind (ih (done + 1) (Or.inl rfl))

/-- Where there is something to construct, and the noise fits, no construction fails. -/
theorem ends_multistart_total (hcoverable : inst.requireCoverable = .ok ())
    (hcosts : ∀ id < inst.subsetCount, inst.costAt id < 2 ^ 63 - 1)
    (hnoise : inst.NoiseFits noise) {count : Nat} (hcount : 1 ≤ count) (hsize : 1 ≤ size)
    (hle : size ≤ inst.subsetCount) :
    Ends (multistart inst count size noise) E (fun _ _ => True) σ := by
  unfold multistart
  refine ends_bind (ends_multistartFrom_total (fun σ => ?_) count 0 (Or.inr hcount)) ?_
  · refine ends_bind (Greedy.ends_construct_total hcoverable hcosts hnoise hsize hle) ?_
    exact fun ids _ hids => ends_ofExcept_ok (Selection.of_eq_ok hids) trivial
  · rintro (_ | best) σ hsome
    · cases hsome
    · exact ends_pure trivial

/-! ## Refusals -/

theorem construct_of_size (h : size = 0 ∨ inst.subsetCount < size) :
    (Greedy.construct inst size noise).run σ =
      .error (.invalid (.shortlistSize size inst.subsetCount)) σ := by
  unfold Greedy.construct
  rw [if_pos h]
  rfl

/-- Impossible parameters are refused before anything happens. -/
theorem exists_refusal_of_multistart {count : Nat} (noise : Nat) (σ : Session)
    (h : count = 0 ∨ size = 0 ∨ inst.subsetCount < size) :
    ∃ why, (multistart inst count size noise).run σ = .error (.invalid why) σ := by
  cases count with
  | zero => exact ⟨.noConstruction, rfl⟩
  | succ count =>
      have hsize : size = 0 ∨ inst.subsetCount < size := h.resolve_left (Nat.succ_ne_zero count)
      exact ⟨_, run_bind_error (run_bind_error (run_bind_error (construct_of_size hsize)))⟩

end SetCover
