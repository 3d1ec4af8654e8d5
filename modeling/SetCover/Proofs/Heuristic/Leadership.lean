import SetCover.Proofs.Genetic.Generation
import SetCover.Proofs.Greedy.Construction
import SetCover.Proofs.Heuristic.Trace
import SetCover.Proofs.Random.Chance

/-!
# Leadership in the genetic search

The leader is a cover throughout and changes only for a cheaper one. Members of the pool that are
there from the start need not be covers. A member that came in later lost to a leader of its time
or was one, so it is a cover that costs at least as much as the leader does now.

* `LeaderGenetic.State.Sound`, `Advances.sound`: what holds at all times.
* `Advances.slot`: what becomes of one place in the pool.
* `leaderGenetic_keeps`: what holds after every generation of a run.
-/

namespace SetCover

open Search

namespace LeaderGenetic

variable {inst : Instance} {attempts size : Nat} {p : Parameters} {s s' : State}
  {E : Fault → Session → Prop} {σ : Session}

/-! ## One generation -/

/-- The pool has its size, all members and the leader are sound, and the leader covers. -/
structure State.Sound (inst : Instance) (size : Nat) (s : State) : Prop where
  size_eq : s.pool.size = size
  members : ∀ m ∈ s.pool.members, m.Sound inst
  leader : s.leader.Sound inst
  covers : s.leader.isCover inst = true

/-- The member at a place of the pool. -/
def State.slot (s : State) (j : Nat) : Option Member := s.pool.members[j]?

theorem IsOffspring.spec {child : Member} (h : IsOffspring inst attempts p s child)
    (hleader : s.leader.Sound inst) : child.Sound inst ∧ child.isCover inst = true := by
  obtain ⟨mates, σ, σ', _, hrun⟩ := h
  have hspec : Ends (offspring inst p.copy attempts s.leader mates) anyFault
      (fun o _ => ∀ child, o = some child → child.Sound inst ∧ child.isCover inst = true) σ :=
    ends_offspring (fun _ _ => trivial) hleader attempts
  exact hspec.of_run hrun child rfl

/-- The leader stays, or a strictly cheaper offspring takes its place. -/
theorem Advances.leader (h : Advances inst attempts p s s') :
    s'.leader = s.leader ∨
      IsOffspring inst attempts p s s'.leader ∧ s'.leader.cost < s.leader.cost := by
  cases h with
  | idle => exact Or.inl rfl
  | crowned hchild hlt _ => exact Or.inr ⟨hchild, hlt⟩
  | defended => exact Or.inl rfl

theorem Advances.leader_cost_le (h : Advances inst attempts p s s') :
    s'.leader.cost ≤ s.leader.cost := by
  rcases h.leader with hsame | ⟨_, hlt⟩
  · exact Nat.le_of_eq (congrArg Member.cost hsame)
  · exact Nat.le_of_lt hlt

/-- The pool is that of before, or a sound cover that costs no less than the leader afterwards is
offered to it. -/
theorem Advances.pool (h : Advances inst attempts p s s') (hs : s.Sound inst size) :
    ∃ candidate, candidate.Sound inst ∧ candidate.isCover inst = true ∧
      s'.leader.cost ≤ candidate.cost ∧ s.pool.Placed candidate s'.pool := by
  cases h with
  | idle => exact ⟨s.leader, hs.leader, hs.covers, Nat.le_refl _, Or.inl rfl⟩
  | crowned _ hlt hplaced => exact ⟨s.leader, hs.leader, hs.covers, Nat.le_of_lt hlt, hplaced⟩
  | defended hchild hle hplaced =>
      obtain ⟨hsound, hcover⟩ := hchild.spec hs.leader
      exact ⟨_, hsound, hcover, hle, hplaced⟩

theorem Advances.sound (h : Advances inst attempts p s s') (hs : s.Sound inst size) :
    s'.Sound inst size := by
  obtain ⟨candidate, hcandidate, _, _, hplaced⟩ := h.pool hs
  have hleader : s'.leader.Sound inst ∧ s'.leader.isCover inst = true := by
    rcases h.leader with hsame | ⟨hchild, _⟩
    · rw [hsame]
      exact ⟨hs.leader, hs.covers⟩
    · exact hchild.spec hs.leader
  refine ⟨hplaced.size_eq.trans hs.size_eq, fun m hm => ?_, hleader.1, hleader.2⟩
  rcases hplaced.mem hm with hold | rfl
  · exact hs.members m hold
  · exact hcandidate

theorem Advances.slots (h : Advances inst attempts p s s') (hs : s.Sound inst size) :
    ∃ i, ∀ j, j ≠ i → s'.slot j = s.slot j := by
  obtain ⟨_, _, _, _, hplaced⟩ := h.pool hs
  exact hplaced.slots

/-- A place keeps its member, or gets a cheaper one that covers and costs no less than the
leader. -/
theorem Advances.slot (h : Advances inst attempts p s s') (hs : s.Sound inst size) (j : Nat) :
    s'.slot j = s.slot j ∨ ∃ old new, s.slot j = some old ∧ s'.slot j = some new ∧
      new.cost < old.cost ∧ new.isCover inst = true ∧ s'.leader.cost ≤ new.cost := by
  obtain ⟨candidate, _, hcover, hle, hplaced⟩ := h.pool hs
  rcases hplaced.slot j with hsame | ⟨old, hold, hlt, hnew⟩
  · exact Or.inl hsame
  · exact Or.inr ⟨old, candidate, hold, hnew, hlt, hcover, hle⟩

theorem Advances.slot_cost_le (h : Advances inst attempts p s s') (hs : s.Sound inst size)
    {j : Nat} {old new : Member} (hold : s.slot j = some old) (hnew : s'.slot j = some new) :
    new.cost ≤ old.cost := by
  obtain ⟨_, _, _, _, hplaced⟩ := h.pool hs
  obtain ⟨new', hnew', hle⟩ := hplaced.exists_slot_le hold
  obtain rfl : new = new' := Option.some.inj (hnew.symm.trans hnew')
  exact hle

/-! ## The start -/

theorem Parameters.check_spec {subsetCount : Nat} (h : p.check subsetCount = .ok ()) :
    subsetCount ≤ geneCapacity ∧ 0 < p.poolSize ∧ p.mates ≤ p.poolSize ∧
      (0.0 ≤ p.copy && p.copy ≤ 1.0) = true := by
  unfold Parameters.check at h
  split at h
  · cases h
  · split at h
    · cases h
    · split at h
      · cases h
      · split at h
        · cases h
        · next hwidth hpool hmates hcopy =>
            refine ⟨Nat.le_of_not_lt hwidth, Nat.pos_of_ne_zero hpool, by omega, ?_⟩
            simpa using hcopy

/-- With parameters that pass the check, and room for the pool, no generation fails. -/
theorem ends_generation_of_check {subsetCount : Nat} (hcheck : p.check subsetCount = .ok ())
    (hshort : p.poolSize * 144 < 2 ^ 63) (hleader : s.leader.Sound inst) (i : Nat) :
    Ends (generation inst attempts p i s) noFault
      (fun s' _ => Advances inst attempts p s s') σ := by
  obtain ⟨_, hpool, hmates, hunit⟩ := Parameters.check_spec hcheck
  refine ends_generation (fun _ hnone => ?_) (fun _ fault herror => ?_) hleader i
  · obtain ⟨chance, hchance⟩ := Chance.exists_of_unit hunit
    rw [hchance] at hnone
    cases hnone
  · obtain ⟨mates, hok⟩ := s.pool.exists_mates s.leader p.mates (by omega)
    rw [hok] at herror
    cases herror

/-- A run starts in a sound state. -/
theorem ends_start (settings : Settings) (budget : Nat)
    (hfirst : Ends (cheapestFirst inst) E (fun s _ => s.IsCover inst) σ)
    (hcheck : ∀ fault, p.check inst.subsetCount = .error fault → E fault σ)
    (hlong : ∀ σ, 2 ^ 63 ≤ p.poolSize * 144 → E (.breach .overLong) σ) :
    Ends (leaderGenetic inst settings budget p).start E (fun s _ =>
      p.check inst.subsetCount = .ok () ∧ p.poolSize * 144 < 2 ^ 63 ∧
        State.Sound inst p.poolSize s) σ := by
  refine ends_bind (ends_ofExcept (Q := fun _ σ' => p.check inst.subsetCount = .ok () ∧ σ' = σ)
    (fun _ h => ⟨h, rfl⟩) hcheck) ?_
  rintro _ _ ⟨hok, rfl⟩
  have hwidth := (Parameters.check_spec hok).1
  refine ends_bind hfirst fun first σ hcover => ?_
  obtain ⟨leader, hleader⟩ := Member.exists_ofSelection (s := first) hwidth
  refine ends_ofExcept_bind hleader ?_
  refine ends_bind (ends_randomPool hwidth (hlong σ)) ?_
  rintro pool σ ⟨hshort, hsize, hmembers⟩
  exact ends_pure ⟨hok, hshort, hsize, hmembers, Member.sound_ofSelection hcover.consistent hleader,
    Member.isCover_ofSelection hcover hleader⟩

theorem run_answer {settings : Settings} {budget : Nat} {a : Selection}
    (h : s.leader.toSelection inst = .ok a) :
    ((leaderGenetic inst settings budget p).answer s).run σ = .ok a σ := by
  dsimp only [leaderGenetic]
  rw [h]
  rfl

/-! ## Whole runs -/

/-- The place of the pool was given to another member in one of the first `n` generations. A place
is given away for a cheaper member only, so the two members differ. -/
def Overwritten {h : Anytime State} (t : h.Trace) (n j : Nat) : Prop :=
  ∃ k, k < n ∧ (t.state (k + 1)).slot j ≠ (t.state k).slot j

/-- The argument looks at the last generation only: if it has not overwritten the place, the leader
has become no more expensive since the place was overwritten. -/
theorem slot_of_overwritten {h : Anytime State} (t : h.Trace)
    (hsound : ∀ n, (t.state n).Sound inst size)
    (hround : ∀ n, Advances inst attempts p (t.state n) (t.state (n + 1))) {n j : Nat}
    (hover : Overwritten t n j) :
    ∃ m, (t.state n).slot j = some m ∧ m.isCover inst = true ∧
      (t.state n).leader.cost ≤ m.cost := by
  induction n with
  | zero =>
      -- before the first generation no place is overwritten
      obtain ⟨k, hk, _⟩ := hover
      exact absurd hk (Nat.not_lt_zero k)
  | succ n ih =>
      rcases (hround n).slot (hsound n) j with hsame | ⟨_, new, _, hnew, _, hcover, hle⟩
      · obtain ⟨k, hk, hne⟩ := hover
        have hkn : k ≠ n := by
          rintro rfl
          exact hne hsame
        obtain ⟨m, hm, hcover, hle⟩ := ih ⟨k, by omega, hne⟩
        exact ⟨m, hsame.trans hm, hcover, Nat.le_trans (hround n).leader_cost_le hle⟩
      · exact ⟨new, hnew, hcover, hle⟩

end LeaderGenetic

open LeaderGenetic

/-- A run on a coverable instance with parameters that pass the check. It starts if the pool can be
held in memory at all, and from then on no generation fails. After every generation the pool has
its size and is sound throughout; the leader is a cover, and is that of before or a strictly cheaper
offspring; at most one place of the pool is given away, and none to a more expensive member; and
whatever place was ever given away is held by a cover that costs no less than the leader. -/
theorem leaderGenetic_keeps (inst : Instance) (hcoverable : inst.requireCoverable = .ok ())
    (hpos : 1 ≤ inst.subsetCount) (hcost : inst.totalCost < 2 ^ 63 - 1) (settings : Settings)
    (budget : Nat) (p : Parameters) (hcheck : p.check inst.subsetCount = .ok ()) (σ : Session) :
    (p.poolSize * 144 < 2 ^ 63 →
      ∃ s σ', (leaderGenetic inst settings budget p).start.run σ = .ok s σ') ∧
    ∀ s₀ σ₀, (leaderGenetic inst settings budget p).start.run σ = .ok s₀ σ₀ →
      ∃ t : @Anytime.Trace LeaderGenetic.State
          (leaderGenetic inst settings budget p).rounds,
        t.state 0 = s₀ ∧ t.session 0 = σ₀ ∧
        (∀ n, (t.state n).Sound inst p.poolSize) ∧
        (∀ n, (t.state (n + 1)).leader.cost ≤ (t.state n).leader.cost ∧
          ((t.state (n + 1)).leader = (t.state n).leader ∨
            IsOffspring inst settings.crossoverAttempts p (t.state n) (t.state (n + 1)).leader ∧
              (t.state (n + 1)).leader.cost < (t.state n).leader.cost)) ∧
        (∀ n, ∃ i, ∀ j, j ≠ i → (t.state (n + 1)).slot j = (t.state n).slot j) ∧
        (∀ n j old new, (t.state n).slot j = some old → (t.state (n + 1)).slot j = some new →
          new.cost ≤ old.cost) ∧
        (∀ n j, Overwritten t n j → ∃ m, (t.state n).slot j = some m ∧ m.isCover inst = true ∧
          (t.state n).leader.cost ≤ m.cost) ∧
        ∀ clock, ∃ n s, n ≤ settings.rounds.getD roundLimit ∧
          (t.state n).leader.toSelection inst = .ok s ∧
          ((leaderGenetic inst settings budget p).run clock).run σ = .ok s (t.session n) := by
  have hcosts : ∀ id < inst.subsetCount, inst.costAt id < 2 ^ 63 - 1 := fun id hid =>
    Nat.lt_of_le_of_lt (Instance.costAt_le_totalCost hid) hcost
  obtain ⟨greedy, hgreedy, htotal⟩ := cheapestFirst_total hcoverable hpos hcosts
  have hstart := ends_start (p := p) (E := fun _ _ => 2 ^ 63 ≤ p.poolSize * 144) (σ := σ) settings
    budget ((htotal _ σ).weaken fun _ _ h => h ▸ hgreedy)
    (fun fault h => by rw [hcheck] at h; cases h) (fun _ h => h)
  refine ⟨fun hshort => ?_, fun s₀ σ₀ hrun₀ => ?_⟩
  · have htotal : Ends _ noFault _ σ :=
      hstart.mono (fun _ _ h => absurd hshort (Nat.not_lt.mpr h)) fun _ _ h => h
    obtain ⟨s, σ', hrun, _⟩ := htotal.exists_run
    exact ⟨s, σ', hrun⟩
  · obtain ⟨_, hshort, hsound₀⟩ := hstart.of_run hrun₀
    obtain ⟨t, hstate, hsession, hsound⟩ := Anytime.exists_trace
      (h := (leaderGenetic inst settings budget p).rounds) (σ := σ₀)
      (I := fun s : LeaderGenetic.State => s.Sound inst p.poolSize) hsound₀ fun n s σ hs =>
        (ends_generation_of_check hcheck hshort hs.leader n).weaken fun s' _ h => h.sound hs
    have hround : ∀ n, Advances inst settings.crossoverAttempts p (t.state n) (t.state (n + 1)) :=
      fun n => (ends_generation_of_check hcheck hshort (hsound n).leader n).of_run (t.round_eq n)
    refine ⟨t, hstate, hsession, hsound, fun n => ⟨(hround n).leader_cost_le, (hround n).leader⟩,
      fun n => (hround n).slots (hsound n),
      fun n j old new hold hnew => (hround n).slot_cost_le (hsound n) hold hnew,
      fun n j => slot_of_overwritten t hsound hround, fun clock => ?_⟩
    obtain ⟨n, hn, hrun⟩ := t.run_eq clock budget settings.rounds
    obtain ⟨s, hs, _⟩ := (hsound n).leader.toSelection (hsound n).covers
    rw [hstate, hsession] at hrun
    exact ⟨n, s, hn, hs, job_run_eq hrun₀ hrun (run_answer hs)⟩

/-- A run with a pool of two on two elements. -/
theorem leaderGenetic_of_two_elements :
    ∃ inst, Instance.build 2 4 [7, 3, 3, 1] [[0, 1, 2], [0, 1, 3]] = .ok inst ∧
      inst.requireCoverable = .ok () ∧ 1 ≤ inst.subsetCount ∧ inst.totalCost < 2 ^ 63 - 1 ∧
      Parameters.check ⟨2, 1, 0.5, 1⟩ inst.subsetCount = .ok () ∧
      ∀ clock, ∃ s σ', ((leaderGenetic inst {} 5 ⟨2, 1, 0.5, 1⟩).run clock).run
        ⟨.ofStream (.ofList [3, 1, 4]), []⟩ = .ok s σ' := by
  obtain ⟨inst, hbuild, hcoverable, hpos, hcost, hcheck⟩ :
      ∃ inst, Instance.build 2 4 [7, 3, 3, 1] [[0, 1, 2], [0, 1, 3]] = .ok inst ∧
        inst.requireCoverable = .ok () ∧ 1 ≤ inst.subsetCount ∧ inst.totalCost < 2 ^ 63 - 1 ∧
        Parameters.check ⟨2, 1, 0.5, 1⟩ inst.subsetCount = .ok () :=
    ⟨_, rfl, by with_unfolding_all rfl, by decide, by decide +kernel, by rfl⟩
  obtain ⟨hstart, hruns⟩ := leaderGenetic_keeps inst hcoverable hpos hcost {} 5 ⟨2, 1, 0.5, 1⟩
    hcheck ⟨.ofStream (.ofList [3, 1, 4]), []⟩
  obtain ⟨s₀, σ₀, hrun₀⟩ := hstart (by decide)
  obtain ⟨t, _, _, _, _, _, _, _, hrun⟩ := hruns s₀ σ₀ hrun₀
  refine ⟨inst, hbuild, hcoverable, hpos, hcost, hcheck, fun clock => ?_⟩
  obtain ⟨n, s, _, _, hrun⟩ := hrun clock
  exact ⟨s, _, hrun⟩

end SetCover
