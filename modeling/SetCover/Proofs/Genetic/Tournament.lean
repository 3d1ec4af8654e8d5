import Mathlib.Data.List.MinMax
import SetCover.Proofs.Genetic.Nearest
import SetCover.Proofs.Search.Sampling

/-!
# Tournaments

A candidate meets the member nearest to it among those that are drawn, the first drawn of them where
distances are equal, and takes its place if it is cheaper. No other place is looked at, however
expensive its member is, and so no place and no pool ever gets more expensive.

* `Pool.Placed`: what becomes of the places of a pool that a candidate is offered to.
* `ends_nearestDrawn_argmin`: the member that the candidate meets.
* `best?_eq_argmin`, `Placed.exists_best?_le`: the cheapest member of a pool.
* `ends_enroll`, `Pool.enroll_nearest`: what becomes of a pool and a candidate.
-/

namespace SetCover.Pool

open Search

variable {pool pool' : Pool} {candidate : Member} {E : Fault → Session → Prop} {σ : Session}

/-! ## Places -/

/-- The pool stays as it is, or the candidate takes the place of a more expensive member. -/
def Placed (pool : Pool) (candidate : Member) (pool' : Pool) : Prop :=
  pool' = pool ∨ ∃ i old, pool.members[i]? = some old ∧ candidate.cost < old.cost ∧
    pool' = ⟨pool.members.setIfInBounds i candidate⟩

theorem Placed.size_eq (h : pool.Placed candidate pool') : pool'.size = pool.size := by
  rcases h with rfl | ⟨i, old, _, _, rfl⟩
  · rfl
  · exact Array.size_setIfInBounds

theorem Placed.slots (h : pool.Placed candidate pool') :
    ∃ i : Nat, ∀ j : Nat, j ≠ i → pool'.members[j]? = pool.members[j]? := by
  rcases h with rfl | ⟨i, old, _, _, rfl⟩
  · exact ⟨0, fun _ _ => rfl⟩
  · refine ⟨i, fun j hj => ?_⟩
    rw [Array.getElem?_setIfInBounds_ne (Ne.symm hj)]

/-- Each place keeps its member, or gets the candidate for a more expensive one. -/
theorem Placed.slot (h : pool.Placed candidate pool') (j : Nat) :
    pool'.members[j]? = pool.members[j]? ∨ ∃ old, pool.members[j]? = some old ∧
      candidate.cost < old.cost ∧ pool'.members[j]? = some candidate := by
  rcases h with rfl | ⟨i, old, hold, hlt, rfl⟩
  · exact Or.inl rfl
  · by_cases hij : i = j
    · subst hij
      obtain ⟨hi, _⟩ := Array.getElem?_eq_some_iff.mp hold
      refine Or.inr ⟨old, hold, hlt, ?_⟩
      rw [Array.getElem?_setIfInBounds_self_of_lt hi]
    · exact Or.inl (Array.getElem?_setIfInBounds_ne hij)

/-- No place gets more expensive. -/
theorem Placed.exists_slot_le (h : pool.Placed candidate pool') {i : Nat} {m : Member}
    (hm : pool.members[i]? = some m) : ∃ m', pool'.members[i]? = some m' ∧ m'.cost ≤ m.cost := by
  rcases h.slot i with hsame | ⟨old, hold, hlt, hnew⟩
  · exact ⟨m, hsame.trans hm, Nat.le_refl _⟩
  · obtain rfl : m = old := Option.some.inj (hm.symm.trans hold)
    exact ⟨candidate, hnew, Nat.le_of_lt hlt⟩

theorem Placed.mem (h : pool.Placed candidate pool') {m : Member} (hm : m ∈ pool'.members) :
    m ∈ pool.members ∨ m = candidate := by
  obtain ⟨j, hj⟩ := Array.mem_iff_getElem?.mp hm
  rcases h.slot j with hsame | ⟨_, _, _, hnew⟩
  · exact Or.inl (Array.mem_of_getElem? (hsame ▸ hj))
  · exact Or.inr (Option.some.inj (hj.symm.trans hnew))

/-! ## The member that is met -/

/-- The first of the least of a list is found from its first two entries on. -/
theorem argmin_cons_cons {α : Type} (f : α → Nat) (a b : α) (l : List α) :
    (a :: b :: l).argmin f = ((if f b < f a then b else a) :: l).argmin f := by
  have hpair : List.argAux (fun c d => f c < f d) (some a) b =
      some (if f b < f a then b else a) := by
    show (if f b < f a then some b else some a) = _
    split <;> rfl
  rw [List.argmin, List.argmin, List.foldl_cons, List.foldl_cons, List.foldl_cons]
  exact congrArg (List.foldl _ · l) hpair

theorem ends_nearestDrawn_argmin (hpos : 0 < pool.size) (candidate : Member) (count : Nat)
    (nearest : Fin pool.size) :
    Ends (pool.nearestDrawn candidate count nearest) E (fun j σ' =>
      (nearest.val :: (σ.source.sample pool.size hpos count).1.map Fin.val).argmin
          (pool.distanceAt candidate) = some j.val ∧
        σ' = { σ with source := (σ.source.sample pool.size hpos count).2 }) σ := by
  induction count generalizing nearest σ with
  | zero => exact ends_pure ⟨rfl, rfl⟩
  | succ count ih =>
      rw [nearestDrawn]
      refine ends_below_run_bind hpos ?_
      refine (ih _).weaken ?_
      rintro j _ ⟨hj, rfl⟩
      refine ⟨?_, rfl⟩
      rw [← hj, ← distanceAt_val, ← distanceAt_val, apply_ite Fin.val]
      exact argmin_cons_cons _ _ _ _

/-! ## The cheapest member -/

theorem best?_eq_argmin (pool : Pool) : pool.best? = pool.members.toList.argmin Member.cost := by
  rw [best?, List.argmin]
  congr 1
  funext best m
  cases best with
  | none => rfl
  | some b =>
      show (if decide (b.cost ≤ m.cost) = true then _ else _) = if m.cost < b.cost then _ else _
      by_cases hlt : m.cost < b.cost
      · rw [if_pos hlt, if_neg (by simpa using hlt)]
      · rw [if_neg hlt, if_pos (by simpa using hlt)]

/-- The cheapest member does not get more expensive. -/
theorem Placed.exists_best?_le (h : pool.Placed candidate pool') {best : Member}
    (hbest : pool.best? = some best) :
    ∃ best', pool'.best? = some best' ∧ best'.cost ≤ best.cost := by
  rw [best?_eq_argmin] at hbest ⊢
  obtain ⟨i, hi⟩ := List.mem_iff_getElem?.mp (List.argmin_mem hbest)
  rw [Array.getElem?_toList] at hi
  obtain ⟨m', hm', hle⟩ := h.exists_slot_le hi
  have hmem : m' ∈ pool'.members.toList := Array.mem_toList_iff.mpr (Array.mem_of_getElem? hm')
  cases hbest' : pool'.members.toList.argmin Member.cost with
  | none =>
      rw [List.argmin_eq_none.mp hbest'] at hmem
      exact absurd hmem List.not_mem_nil
  | some best' => exact ⟨best', rfl, (List.le_of_mem_argmin hmem hbest').trans hle⟩

/-! ## The tournament -/

theorem ends_enroll_nearest (hpos : 0 < pool.size) (candidate : Member) {sample : Nat}
    (hsample : 1 ≤ sample) :
    Ends (pool.enroll candidate sample) E (fun r σ' =>
      σ'.source = (σ.source.sample pool.size hpos sample).2 ∧
      ∃ j old, ((σ.source.sample pool.size hpos sample).1.map Fin.val).argmin
          (pool.distanceAt candidate) = some j ∧ pool.members[j]? = some old ∧
        r = if candidate.cost < old.cost then
            (⟨pool.members.setIfInBounds j candidate⟩, some j)
          else (pool, none)) σ := by
  obtain ⟨left, rfl⟩ := Nat.exists_eq_add_of_le' hsample
  unfold enroll
  rw [if_neg (by omega)]
  refine ends_below_run_bind hpos ?_
  refine ends_bind (ends_nearestDrawn_argmin hpos candidate left _) ?_
  rintro j _ ⟨hj, rfl⟩
  have hold := pool.getElem?_members j
  refine ends_ite (fun hcheaper => ?_) fun hdearer => ?_
  · refine ends_note_bind (ends_pure ⟨rfl, j.val, _, hj, hold, ?_⟩)
    rw [if_pos hcheaper, Array.setIfInBounds, dif_pos (show j.val < pool.members.size from j.isLt)]
  · refine ends_pure ⟨rfl, j.val, _, hj, hold, ?_⟩
    rw [if_neg hdearer]

/-- Whatever is drawn, if anything is, the candidate takes the place of a more expensive member or
is turned down. -/
theorem ends_enroll (pool : Pool) (candidate : Member) (sample : Nat) :
    Ends (pool.enroll candidate sample) E (fun r _ => pool.Placed candidate r.1) σ := by
  by_cases hnone : pool.size = 0 ∨ sample = 0
  · unfold enroll
    rw [if_pos hnone]
    exact ends_pure (Or.inl rfl)
  · have hpos : 0 < pool.size := by omega
    refine (ends_enroll_nearest hpos candidate (by omega)).weaken ?_
    rintro _ _ ⟨-, j, old, -, hold, rfl⟩
    split
    · next hcheaper => exact Or.inr ⟨j, old, hold, hcheaper, rfl⟩
    · exact Or.inl rfl

/-- **Tournaments.** For a pool with members and a sample with draws, a tournament draws just so
many places, and the candidate meets the first of those drawn whose distance to it is least. A
candidate that is cheaper takes that place; otherwise the pool stays as it is. The other places keep
their members in any case, so no place gets more expensive, and neither does the cheapest member. -/
theorem enroll_nearest (pool : Pool) (hpos : 0 < pool.size) (candidate : Member) (sample : Nat)
    (hsample : 1 ≤ sample) (σ : Session) :
    ∃ indices after, σ.source.sample pool.size hpos sample = (indices, after) ∧
      indices.length = sample ∧
      ∃ j old, (indices.map Fin.val).argmin (pool.distanceAt candidate) = some j ∧
        pool.members[j]? = some old ∧
        ∃ pool' taken σ', (pool.enroll candidate sample).run σ = .ok (pool', taken) σ' ∧
          σ'.source = after ∧
          (candidate.cost < old.cost → taken = some j ∧ pool'.members[j]? = some candidate) ∧
          (old.cost ≤ candidate.cost → taken = none ∧ pool' = pool) ∧
          (∀ i : Nat, i ≠ j → pool'.members[i]? = pool.members[i]?) ∧
          (∀ (i : Nat) (m : Member), pool.members[i]? = some m →
            ∃ m', pool'.members[i]? = some m' ∧ m'.cost ≤ m.cost) ∧
          ∀ best, pool.best? = some best →
            ∃ best', pool'.best? = some best' ∧ best'.cost ≤ best.cost := by
  have hlength := σ.source.length_sample pool.size hpos sample
  obtain ⟨⟨pool', taken⟩, σ', hrun, hafter, j, old, hj, hold, hresult⟩ :=
    (ends_enroll_nearest (σ := σ) hpos candidate hsample).exists_run
  refine ⟨_, _, rfl, hlength, j, old, hj, hold, pool', taken, σ', hrun, hafter, ?_⟩
  obtain ⟨hi, _⟩ := Array.getElem?_eq_some_iff.mp hold
  by_cases hcheaper : candidate.cost < old.cost
  · rw [if_pos hcheaper] at hresult
    obtain ⟨rfl, rfl⟩ := Prod.mk.inj hresult
    have hplaced : pool.Placed candidate ⟨pool.members.setIfInBounds j candidate⟩ :=
      Or.inr ⟨j, old, hold, hcheaper, rfl⟩
    refine ⟨fun _ => ⟨rfl, Array.getElem?_setIfInBounds_self_of_lt hi⟩, fun hle => by omega,
      fun i hij => Array.getElem?_setIfInBounds_ne (Ne.symm hij),
      fun i m => hplaced.exists_slot_le, fun best => hplaced.exists_best?_le⟩
  · rw [if_neg hcheaper] at hresult
    obtain ⟨rfl, rfl⟩ := Prod.mk.inj hresult.symm
    have hplaced : pool.Placed candidate pool := Or.inl rfl
    exact ⟨fun hlt => absurd hlt hcheaper, fun _ => ⟨rfl, rfl⟩, fun _ _ => rfl,
      fun i m => hplaced.exists_slot_le, fun best => hplaced.exists_best?_le⟩

/-- Of two places that are equally near the one that is drawn first is taken, though it is drawn
again later, and though the farthest place has the most expensive member. -/
theorem enroll_nearest_of_ties :
    ∃ blank : Genes, Bits.blank? geneWords 4 = .ok blank ∧
      ∃ pool, pool = Pool.mk #[⟨(blank.set 0).set 1, 100⟩, ⟨blank.set 0, 9⟩, ⟨blank.set 1, 8⟩,
          ⟨blank.set 2, 7⟩] ∧
        0 < pool.size ∧ 1 ≤ 4 ∧
        ∃ words, words = [0, 0x8000000000000000, 0x4000000000000000, 0x8000000000000000] ∧
        ∃ pool' σ', (pool.enroll ⟨blank, 5⟩ 4).run ⟨.ofStream (.ofList words), []⟩ =
            .ok (pool', some 2) σ' ∧
          σ'.source = .ofPlace (.ofList words) 4 ∧
          pool'.members[2]? = some ⟨blank, 5⟩ ∧
          ∀ i : Nat, i ≠ 2 → pool'.members[i]? = pool.members[i]? := by
  obtain ⟨blank, hblank, hdistances⟩ :
      ∃ blank : Genes, Bits.blank? geneWords 4 = .ok blank ∧
        [0, 2, 1].map (Pool.distanceAt ⟨#[⟨(blank.set 0).set 1, 100⟩, ⟨blank.set 0, 9⟩,
          ⟨blank.set 1, 8⟩, ⟨blank.set 2, 7⟩]⟩ ⟨blank, 5⟩) = [2, 1, 1] :=
    ⟨_, rfl, by decide +kernel⟩
  refine ⟨blank, hblank, _, rfl, ?_⟩
  generalize hpool : Pool.mk #[⟨(blank.set 0).set 1, 100⟩, ⟨blank.set 0, 9⟩, ⟨blank.set 1, 8⟩,
    ⟨blank.set 2, 7⟩] = pool at hdistances ⊢
  have hsize : pool.size = 4 := by
    rw [← hpool]
    rfl
  have hmet : pool.members[2]? = some ⟨blank.set 1, 8⟩ := by
    rw [← hpool]
    rfl
  have hnearest : [0, 2, 1, 2].argmin (pool.distanceAt ⟨blank, 5⟩) = some 2 := by
    simp only [List.map_cons, List.map_nil, List.cons.injEq] at hdistances
    simp [argmin_cons_cons, hdistances]
  have hpos : 0 < pool.size := by omega
  obtain ⟨drawn, hdrawn, hvalues⟩ :=
    Source.exists_sample_ofList [0, 0x8000000000000000, 0x4000000000000000, 0x8000000000000000] hpos
      (by rw [hsize]; decide +kernel)
  obtain ⟨indices, after, hsample, _, j, old, hj, hold, pool', taken, σ', hrun, hafter, htaken, _,
    hothers, _⟩ := enroll_nearest pool hpos ⟨blank, 5⟩ 4 (by decide)
      ⟨.ofStream (.ofList [0, 0x8000000000000000, 0x4000000000000000, 0x8000000000000000]), []⟩
  obtain ⟨rfl, rfl⟩ := Prod.mk.inj (hsample.symm.trans hdrawn)
  have hindices : indices.map Fin.val = [0, 2, 1, 2] := by
    rw [hvalues, hsize]
    decide +kernel
  rw [hindices] at hj
  obtain rfl := Option.some.inj (hj.symm.trans hnearest)
  have hcost : old.cost = 8 := congrArg Member.cost (Option.some.inj (hold.symm.trans hmet))
  have hcheaper : 5 < old.cost := by omega
  obtain ⟨rfl, hplace⟩ := htaken hcheaper
  exact ⟨hpos, by decide, _, rfl, pool', σ', hrun, hafter, hplace, hothers⟩

end SetCover.Pool
