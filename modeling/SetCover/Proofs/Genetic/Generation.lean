import SetCover.Heuristic.LeaderGenetic
import SetCover.Proofs.Genetic.Member
import SetCover.Proofs.Genetic.Tournament

/-!
# Generations

What one generation does to leader and pool. An offspring that is found is a sound cover; it takes
the place of a leader that is more expensive, and the one that is not leader afterwards takes at
most one place in the pool, of a member that is more expensive.

* `ends_offspring`: an offspring is a sound cover.
* `Pool.ends_challenge`: who leads after a challenge, and who is offered to the pool.
* `LeaderGenetic.Advances`, `ends_generation`: what a generation does.
-/

namespace SetCover

open Search

variable {inst : Instance} {E : Fault → Session → Prop} {σ : Session} {copy : Float}
  {leader : Member} {mates : List Member} {pool : Pool}

/-! ## Offspring -/

/-- A child has the width of its leader. It fails only for an impossible chance. -/
theorem ends_crossover (hcopy : ∀ σ, Chance.ofFloat? copy = none → E (.breach .badChance) σ)
    (leader mate : Genes) :
    Ends (crossover copy leader mate) E
      (fun child _ => child.width = leader.width ∧ child.Clean) σ := by
  obtain ⟨blank, hblank⟩ := Bits.exists_blank? leader.width_le
  unfold crossover
  refine ends_ofExcept_bind hblank ?_
  refine ends_bind (ends_foldlM (fun child _ => child.width = leader.width) _ _
    (Bits.blank?_eq_ok hblank).2.1 ?_) ?_
  · intro child i _ σ hchild
    refine ends_bind (R := fun _ _ => True) (ends_favouredBy (hcopy σ) fun _ _ => trivial) ?_
    intro fromLeader σ _
    exact ends_pure ((Bits.width_assign ..).trans hchild)
  · intro child σ hchild
    have hwidth := (Bits.width_truncate child).trans hchild
    exact ends_pure ⟨hwidth, Bits.clean_truncate child⟩

theorem ends_offspringFrom (hcopy : ∀ σ, Chance.ofFloat? copy = none → E (.breach .badChance) σ)
    (hleader : leader.Sound inst) (hmates : mates ≠ []) (attempts left : Nat) :
    Ends (offspringFrom inst copy attempts leader mates left) E
      (fun o _ => ∀ child, o = some child → child.Sound inst ∧ child.isCover inst = true) σ := by
  induction left generalizing σ with
  | zero =>
      refine ends_note_bind (ends_pure ?_)
      simp
  | succ left ih =>
      rw [offspringFrom]
      have hpos : 0 < mates.length := List.length_pos_iff.mpr hmates
      refine ends_below_bind hpos fun i source => ?_
      refine ends_bind (ends_crossover hcopy leader.genes (mates.get i).genes) ?_
      rintro child σ ⟨hwidth, hclean⟩
      have hwidth := hwidth.trans hleader.width_eq
      refine ends_ite (fun hcovered => ?_) fun _ => ih
      refine ends_ofExcept_bind (Member.of?_eq_ok hwidth hclean) (ends_pure ?_)
      intro _ heq
      cases heq
      exact ⟨Member.sound_of hwidth hclean, hcovered⟩

/-- An offspring is a sound cover. -/
theorem ends_offspring (hcopy : ∀ σ, Chance.ofFloat? copy = none → E (.breach .badChance) σ)
    (hleader : leader.Sound inst) (attempts : Nat) :
    Ends (offspring inst copy attempts leader mates) E
      (fun o _ => ∀ child, o = some child → child.Sound inst ∧ child.isCover inst = true) σ := by
  unfold offspring
  refine ends_ite (fun _ => ends_pure (by simp)) fun hmates => ?_
  exact ends_offspringFrom hcopy hleader (fun hnil => hmates (by simp [hnil])) attempts attempts

/-! ## Challenges -/

namespace Pool

/-- The one of leader and offspring that is leader afterwards: the cheaper one, and the leader where
costs are equal. -/
def winner (leader offspring : Member) : Member :=
  if offspring.cost < leader.cost then offspring else leader

/-- The other one of leader and offspring. -/
def loser (leader offspring : Member) : Member :=
  if offspring.cost < leader.cost then leader else offspring

/-- The winner leads, and the loser is offered to the pool. -/
theorem ends_challenge (pool : Pool) (leader offspring : Member) (sample : Nat) :
    Ends (pool.challenge leader offspring sample) E (fun o _ =>
      (o.changed = true ↔ offspring.cost < leader.cost) ∧ o.leader = winner leader offspring ∧
        pool.Placed (loser leader offspring) o.pool) σ := by
  unfold challenge winner loser
  refine ends_ite (fun hlt => ?_) fun hge => ?_
  · refine ends_bind (ends_enroll pool leader sample) fun r _ hplaced => ends_pure ?_
    simpa [hlt] using hplaced
  · refine ends_bind (ends_enroll pool offspring sample) fun r _ hplaced => ends_pure ?_
    simpa [hge] using hplaced

end Pool

/-! ## One generation -/

namespace LeaderGenetic

variable {attempts size : Nat} {p : Parameters} {s s' : State}

/-- The child is made of the leader and its mates. -/
def IsOffspring (inst : Instance) (attempts : Nat) (p : Parameters) (s : State)
    (child : Member) : Prop :=
  ∃ mates σ σ', s.pool.mates s.leader p.mates = .ok mates ∧
    (offspring inst p.copy attempts s.leader mates).run σ = .ok (some child) σ'

/-- What a generation does. -/
inductive Advances (inst : Instance) (attempts : Nat) (p : Parameters) (s : State) : State → Prop
  /-- There is no offspring. -/
  | idle : Advances inst attempts p s s
  /-- The offspring becomes the leader, and the old leader is offered to the pool. -/
  | crowned {child pool} : IsOffspring inst attempts p s child → child.cost < s.leader.cost →
      s.pool.Placed s.leader pool → Advances inst attempts p s ⟨child, pool⟩
  /-- The leader stays, and the offspring is offered to the pool. -/
  | defended {child pool} : IsOffspring inst attempts p s child → s.leader.cost ≤ child.cost →
      s.pool.Placed child pool → Advances inst attempts p s ⟨s.leader, pool⟩

/-- A generation advances. It fails only for an impossible chance or for lack of room. -/
theorem ends_generation (hcopy : ∀ σ, Chance.ofFloat? p.copy = none → E (.breach .badChance) σ)
    (hmates : ∀ σ fault, s.pool.mates s.leader p.mates = .error fault → E fault σ)
    (hleader : s.leader.Sound inst) (i : Nat) :
    Ends (generation inst attempts p i s) E (fun s' _ => Advances inst attempts p s s') σ := by
  unfold generation
  refine ends_bind (ends_ofExcept (Q := fun mates _ =>
    s.pool.mates s.leader p.mates = .ok mates) (fun _ h => h) (hmates σ)) ?_
  intro mates σ hmates
  refine ends_bind (ends_offspring hcopy hleader attempts).with_run ?_
  rintro (_ | child) σ' ⟨_, hrun⟩
  · exact ends_pure .idle
  · have hchild : IsOffspring inst attempts p s child := ⟨mates, σ, σ', hmates, hrun⟩
    refine ends_bind (s.pool.ends_challenge s.leader child p.sample) ?_
    rintro o σ ⟨-, hleads, hplaced⟩
    have hadvances : Advances inst attempts p s ⟨o.leader, o.pool⟩ := by
      unfold Pool.winner at hleads
      unfold Pool.loser at hplaced
      rw [hleads]
      split at hplaced
      · next hlt =>
          rw [if_pos hlt]
          exact .crowned hchild hlt hplaced
      · next hge =>
          rw [if_neg hge]
          exact .defended hchild (Nat.le_of_not_lt hge) hplaced
    refine ends_ite (fun _ => ?_) fun _ => ends_pure hadvances
    exact ends_note_bind (ends_pure hadvances)

end LeaderGenetic

end SetCover
