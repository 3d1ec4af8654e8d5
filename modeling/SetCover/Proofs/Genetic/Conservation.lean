import Mathlib.Algebra.Order.Group.Multiset
import Mathlib.Data.List.Perm.Basic
import Mathlib.Tactic.Abel
import SetCover.Proofs.Genetic.Generation

/-!
# Members that are kept

A challenge moves members between the leader and the places of the pool, and the tournament in it
may turn its candidate down. Whatever the random words are, one member gets lost on the way and no
other one, and nothing comes in but the offspring.

* `Pool.contents`: the members of a pool, each as often as it occurs.
* `Pool.Placed.exists_displaced`: the member that has to go when a candidate is offered to a pool.
* `Pool.challenge_conserves`: what becomes of leader, offspring and pool.
-/

namespace SetCover

namespace Pool

variable {pool pool' : Pool} {candidate leader offspring : Member}

/-- The members of a pool, each as often as it occurs. -/
def contents (pool : Pool) : Multiset Member := pool.members.toList

theorem contents_set {i : Nat} {old : Member} (hold : pool.members[i]? = some old)
    (candidate : Member) :
    contents ⟨pool.members.setIfInBounds i candidate⟩ + {old} = pool.contents + {candidate} := by
  rw [← Array.getElem?_toList] at hold
  obtain ⟨hi, heq⟩ := List.getElem?_eq_some_iff.mp hold
  have hpool : old ::ₘ ↑(pool.members.toList.eraseIdx i) = pool.contents := by
    rw [Multiset.cons_coe, ← heq]
    exact Multiset.coe_eq_coe.mpr (List.getElem_cons_eraseIdx_perm hi)
  have hset : contents ⟨pool.members.setIfInBounds i candidate⟩ =
      candidate ::ₘ ↑(pool.members.toList.eraseIdx i) := by
    rw [Multiset.cons_coe, contents, Array.toList_setIfInBounds]
    exact Multiset.coe_eq_coe.mpr (List.set_perm_cons_eraseIdx hi candidate)
  rw [hset, ← hpool, ← Multiset.singleton_add, ← Multiset.singleton_add]
  abel

/-- What becomes of the places of a pool when `displaced` has to go: it is the candidate, which is
turned down, or a more expensive member whose place the candidate takes. -/
def Displaces (pool : Pool) (candidate : Member) (pool' : Pool) (displaced : Member) : Prop :=
  (pool' = pool ∧ displaced = candidate) ∨
    ∃ i : Nat, pool.members[i]? = some displaced ∧ candidate.cost < displaced.cost ∧
      pool'.members[i]? = some candidate ∧
        ∀ j : Nat, j ≠ i → pool'.members[j]? = pool.members[j]?

theorem Placed.exists_displaced (h : pool.Placed candidate pool') :
    ∃ displaced, pool.Displaces candidate pool' displaced ∧
      pool'.contents + {displaced} = pool.contents + {candidate} := by
  rcases h with rfl | ⟨i, old, hold, hlt, rfl⟩
  · exact ⟨candidate, Or.inl ⟨rfl, rfl⟩, rfl⟩
  · obtain ⟨hi, _⟩ := Array.getElem?_eq_some_iff.mp hold
    refine ⟨old, Or.inr ⟨i, hold, hlt, ?_, fun j hj => ?_⟩, contents_set hold candidate⟩
    · exact Array.getElem?_setIfInBounds_self_of_lt hi
    · exact Array.getElem?_setIfInBounds_ne (Ne.symm hj)

theorem Displaces.cost_le {displaced : Member} (h : pool.Displaces candidate pool' displaced) :
    candidate.cost ≤ displaced.cost := by
  rcases h with ⟨_, rfl⟩ | ⟨_, _, hlt, _⟩
  · exact Nat.le_refl _
  · exact Nat.le_of_lt hlt

theorem winner_add_loser (leader offspring : Member) :
    ({winner leader offspring} + {loser leader offspring} : Multiset Member) =
      {leader} + {offspring} := by
  unfold winner loser
  split
  · exact add_comm _ _
  · rfl

theorem cost_winner_le (leader offspring : Member) :
    (winner leader offspring).cost ≤ (loser leader offspring).cost := by
  unfold winner loser
  split
  · next hlt => exact Nat.le_of_lt hlt
  · next hge => exact Nat.le_of_not_lt hge

/-- **Conservation.** A challenge always has an outcome. The offspring leads afterwards if it is
cheaper than the leader, and otherwise the old leader does. The other one is turned down, or takes
the place of a member that is more expensive than it, and no other place changes. The one member
that has to go is all that is lost, and it costs no less than the new leader. -/
theorem challenge_conserves (pool : Pool) (leader offspring : Member) (sample : Nat)
    (σ : Session) :
    ∃ o σ', (pool.challenge leader offspring sample).run σ = .ok o σ' ∧
      (o.changed = true ↔ offspring.cost < leader.cost) ∧
      o.leader = (if offspring.cost < leader.cost then offspring else leader) ∧
      ∃ lost,
        (∀ m, {o.leader} + o.pool.contents + {m} = {leader} + pool.contents + {offspring} ↔
          m = lost) ∧
        pool.Displaces (if offspring.cost < leader.cost then leader else offspring) o.pool lost ∧
        o.leader.cost ≤ lost.cost := by
  obtain ⟨o, σ', hrun, hchanged, hleads, hplaced⟩ :=
    (ends_challenge (σ := σ) pool leader offspring sample).exists_run
  obtain ⟨lost, hdisplaces, hcontents⟩ := hplaced.exists_displaced
  refine ⟨o, σ', hrun, hchanged, hleads, lost, fun m => ?_, hdisplaces, ?_⟩
  · have hall : {o.leader} + o.pool.contents + {lost} =
        {leader} + pool.contents + {offspring} := by
      calc {o.leader} + o.pool.contents + {lost}
          = {o.leader} + (pool.contents + {loser leader offspring}) := by
            rw [add_assoc, hcontents]
        _ = ({winner leader offspring} + {loser leader offspring}) + pool.contents := by
            rw [hleads]
            abel
        _ = {leader} + pool.contents + {offspring} := by
            rw [winner_add_loser]
            abel
    rw [← hall, add_right_inj, Multiset.singleton_inj]
  · rw [hleads]
    exact (cost_winner_le leader offspring).trans hdisplaces.cost_le

end Pool

end SetCover
