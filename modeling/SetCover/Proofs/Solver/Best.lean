import SetCover.Proofs.Greedy.Totality
import SetCover.Proofs.Search.Writing
import SetCover.Proofs.Selection.Earliest
import SetCover.Proofs.Solver.Covers

/-!
# The best of several constructions

What is written down does not matter to a construction. So the constructions that a multistart
compares are those that are made one after another from the same words, without anything between
them. Fewer constructions are the first of more.

* `Greedy.blind_construct`: a construction does not read the journal.
* `constructions`, `run_constructions_take`: constructions one after another, and the first of them.
* `run_multistartFrom`: the comparisons on the way.
* `Solver.answer_multistart`: the answer to a multistart.
-/

namespace SetCover

open Search

variable {inst : Instance} {size noise : Nat} {E : Fault → Session → Prop} {σ σ' τ : Session}

/-! ## Constructions do not read the journal -/

namespace Greedy

theorem blind_grow (inst : Instance) (size : Nat) (pool : List Offer) (left : List Nat)
    (kept : IdSet) : Blind (grow inst size pool left kept) := by
  -- every step takes an offer out of the pool
  induction hn : pool.length using Nat.strongRecOn generalizing pool left kept with
  | ind n ih =>
      subst hn
      cases left with
      | nil =>
          rw [grow]
          exact blind_pure kept
      | cons first more =>
          rw [grow]
          refine blind_ite (blind_throw _) ((blind_below _).bind fun i => ?_)
          exact (blind_note _).bind fun _ => ih _ (length_erase_shortlist_lt i) _ _ _ rfl

theorem blind_price (amount cost : Int) : Blind (price amount cost) := by
  unfold price
  refine blind_ite (blind_pure cost) (blind_ite ?_ (blind_throw _))
  exact (blind_below _).bind fun n => blind_pure _

theorem blind_construct (inst : Instance) (size noise : Nat) :
    Blind (construct inst size noise) := by
  unfold construct
  refine blind_ite (blind_throw _) ((blind_ofExcept _).bind fun _ => ?_)
  refine (blind_mapM _ _ fun cost => blind_price _ _).bind fun prices => ?_
  exact blind_grow inst size _ _ _

end Greedy

/-! ## One construction after another -/

/-- The results of `count` constructions, each with the words that the ones before it left. -/
def constructions (inst : Instance) (size noise : Nat) : Nat → Search (List IdSet)
  | 0 => pure []
  | count + 1 => do
      let ids ← Greedy.construct inst size noise
      let more ← constructions inst size noise count
      pure (ids :: more)

theorem ends_constructions_total (hcoverable : inst.requireCoverable = .ok ())
    (hcosts : ∀ id < inst.subsetCount, inst.costAt id < 2 ^ 63 - 1)
    (hnoise : inst.NoiseFits noise) (hsize : 1 ≤ size) (hle : size ≤ inst.subsetCount)
    (count : Nat) :
    Ends (constructions inst size noise count) E
      (fun outcomes _ => outcomes.length = count ∧
        ∀ ids ∈ outcomes, (∀ id ∈ ids, id < inst.subsetCount) ∧ inst.covers ids = true) σ := by
  induction count generalizing σ with
  | zero => exact ends_pure ⟨rfl, by simp⟩
  | succ count ih =>
      refine ends_bind ((Greedy.ends_construct_total hcoverable hcosts hnoise hsize hle).also
        (Greedy.ends_construct size noise)) ?_
      rintro ids σ ⟨_, hids⟩
      refine ends_bind ih ?_
      rintro more σ ⟨hlength, hmore⟩
      exact ends_pure ⟨congrArg (· + 1) hlength, List.forall_mem_cons.mpr ⟨hids, hmore⟩⟩

/-- The first of several constructions, and the others after it. -/
theorem exists_of_run_constructions {count : Nat} {outcomes : List IdSet}
    (hrun : (constructions inst size noise (count + 1)).run σ = .ok outcomes σ') :
    ∃ ids more σ₁, outcomes = ids :: more ∧
      (Greedy.construct inst size noise).run σ = .ok ids σ₁ ∧
      (constructions inst size noise count).run σ₁ = .ok more σ' := by
  obtain ⟨ids, σ₁, hfirst, hrest⟩ := exists_of_run_bind hrun
  obtain ⟨more, σ₂, hmore, hpure⟩ := exists_of_run_bind hrest
  cases hpure
  exact ⟨ids, more, σ₁, rfl, hfirst, hmore⟩

/-- Fewer constructions from the same session give the first of the same results. -/
theorem run_constructions_take {count fewer : Nat} {outcomes : List IdSet}
    (hrun : (constructions inst size noise count).run σ = .ok outcomes σ') (hle : fewer ≤ count) :
    ∃ τ, (constructions inst size noise fewer).run σ = .ok (outcomes.take fewer) τ := by
  induction fewer generalizing count outcomes σ with
  | zero => exact ⟨σ, rfl⟩
  | succ fewer ih =>
      obtain ⟨count, rfl⟩ := Nat.exists_eq_add_of_le' (Nat.le_trans (Nat.succ_pos fewer) hle)
      obtain ⟨ids, more, σ₁, rfl, hfirst, hmore⟩ := exists_of_run_constructions hrun
      obtain ⟨τ, hfewer⟩ := ih hmore (Nat.le_of_succ_le_succ hle)
      refine ⟨τ, ?_⟩
      rw [constructions, run_bind_ok hfirst, run_bind_ok hfewer, List.take_succ_cons]
      rfl

/-! ## The comparisons -/

/-- The selection of some ids, with their cost and number. -/
def Selection.ofKnown (inst : Instance) (ids : IdSet) : Selection :=
  ⟨inst.weight ids.toList, ids.card, ids⟩

/-- The best selection so far, if there is one, is the first of the cheapest that were seen. -/
def IsBestOf (best : Option Selection) (seen : List Selection) : Prop :=
  match best with
  | some s => s.IsEarliestCheapest seen
  | none => seen = []

theorem IsBestOf.concat {best : Option Selection} {seen : List Selection} (h : IsBestOf best seen)
    (s : Selection) :
    IsBestOf (if best.any (·.cost ≤ s.cost) then best else some s) (seen ++ [s]) := by
  cases best with
  | none =>
      obtain rfl : seen = [] := h
      exact Selection.isEarliestCheapest_singleton s
  | some best =>
      have hconcat := Selection.IsEarliestCheapest.concat h s
      by_cases hle : best.cost ≤ s.cost
      · rw [if_neg (Nat.not_lt.mpr hle)] at hconcat
        rw [Option.any_some, if_pos (decide_eq_true hle)]
        exact hconcat
      · rw [if_pos (Nat.lt_of_not_le hle)] at hconcat
        rw [Option.any_some, if_neg (by simpa using hle)]
        exact hconcat

/-- A multistart compares the results of the constructions that follow one another. -/
theorem run_multistartFrom (done : Nat) {left : Nat} {best : Option Selection}
    {seen : List Selection} {outcomes : List IdSet} (hbest : IsBestOf best seen)
    (hrun : (constructions inst size noise left).run σ = .ok outcomes σ')
    (hsource : σ.source = τ.source) :
    ∃ best' τ', (multistartFrom inst size noise left done best).run τ = .ok best' τ' ∧
      σ'.source = τ'.source ∧ IsBestOf best' (seen ++ outcomes.map (.ofKnown inst)) := by
  induction left generalizing done best seen outcomes σ τ with
  | zero =>
      cases hrun
      exact ⟨best, τ, rfl, hsource, by rwa [List.map_nil, List.append_nil]⟩
  | succ left ih =>
      obtain ⟨ids, more, σ₁, rfl, hfirst, hmore⟩ := exists_of_run_constructions hrun
      obtain ⟨τ₁, hfirst', hsource₁⟩ := (Greedy.blind_construct inst size noise).exists_run hfirst
        hsource
      have hids : ∀ id ∈ ids, id < inst.subsetCount :=
        ((Greedy.ends_construct size noise).of_run hfirst).1
      have hconstructed : (constructed inst size noise).run τ = .ok (.ofKnown inst ids) τ₁ := by
        rw [constructed, run_bind_ok hfirst', Selection.of_eq_ok hids]
        rfl
      have hbest₁ := hbest.concat (.ofKnown inst ids)
      rw [multistartFrom, run_bind_ok hconstructed, List.map_cons, ← List.singleton_append,
        ← List.append_assoc]
      split at hbest₁
      · next hkeeps =>
          rw [if_pos hkeeps]
          exact ih (done + 1) hbest₁ hmore hsource₁
      · next hbeaten =>
          rw [if_neg hbeaten]
          exact ih (done + 1) hbest₁ hmore hsource₁

/-- A multistart gives the first of the cheapest of its constructions. -/
theorem run_multistart {count : Nat} {outcomes : List IdSet} (hcount : 1 ≤ count)
    (hlength : outcomes.length = count)
    (hrun : (constructions inst size noise count).run σ = .ok outcomes σ') :
    ∃ best τ, (multistart inst count size noise).run σ = .ok best τ ∧ σ'.source = τ.source ∧
      best.IsEarliestCheapest (outcomes.map (.ofKnown inst)) := by
  have hnone : IsBestOf none [] := rfl
  obtain ⟨best, τ, hrun', hsource, hbest⟩ := run_multistartFrom 0 hnone hrun rfl
  rw [List.nil_append] at hbest
  cases best with
  | none =>
      have hnil : outcomes = [] := List.map_eq_nil_iff.mp hbest
      subst hnil
      subst hlength
      exact absurd hcount (by decide)
  | some best =>
      refine ⟨best, τ, ?_, hsource, hbest⟩
      rw [multistart, run_bind_ok hrun']
      rfl

namespace Solver

/-- **The best of several constructions.** Let the costs be below the mark of taken subsets, and let
noise leave room for them. A multistart for one construction or more, with shortlists of a possible
size, is answered by the first of the cheapest of the covers that as many constructions give, one
after another, with the words that come next for the solver; what counts are the costs without
noise. No other words are taken. Fewer constructions from the same words give the first of the same
covers, so that their best is the same one, or one that costs more. -/
theorem answer_multistart (solver : Solver) (size noise : Nat) (hsize : 1 ≤ size)
    (hle : size ≤ solver.inst.subsetCount)
    (hcosts : ∀ id < solver.inst.subsetCount, solver.inst.costAt id < 2 ^ 63 - 1)
    (hnoise : solver.inst.NoiseFits noise) (count : Nat) (hcount : 1 ≤ count) :
    ∃ outcomes after best,
      (constructions solver.inst size noise count).run solver.session = .ok outcomes after ∧
      outcomes.length = count ∧
      (∀ ids ∈ outcomes,
        (∀ id ∈ ids, id < solver.inst.subsetCount) ∧ solver.inst.covers ids = true) ∧
      best.IsEarliestCheapest (outcomes.map (.ofKnown solver.inst)) ∧
      (∀ clock, (solver.answer (.multistart count size noise) clock).1 = .ok best ∧
        (solver.answer (.multistart count size noise) clock).2.session.source = after.source) ∧
      ∀ fewer, 1 ≤ fewer → fewer ≤ count → ∃ best',
        best'.IsEarliestCheapest ((outcomes.take fewer).map (.ofKnown solver.inst)) ∧
        (∀ clock, (solver.answer (.multistart fewer size noise) clock).1 = .ok best') ∧
        best'.IsOrBeats best := by
  have htotal : Ends (constructions solver.inst size noise count) noFault _ solver.session :=
    ends_constructions_total solver.coverable hcosts hnoise hsize hle count
  obtain ⟨outcomes, after, hrun, hlength, hcovers⟩ := htotal.exists_run
  obtain ⟨best, session, hbest, hsource, hearliest⟩ := run_multistart hcount hlength hrun
  refine ⟨outcomes, after, best, hrun, hlength, hcovers, hearliest, fun clock => ?_,
    fun fewer hfewer hle => ?_⟩
  · have hanswer : solver.answer (.multistart count size noise) clock =
        (.ok best, { solver with session }) := answer_eq (job_run_eq hbest rfl rfl)
    rw [hanswer]
    exact ⟨rfl, hsource.symm⟩
  · obtain ⟨after', hrun'⟩ := run_constructions_take hrun hle
    have hlength' : (outcomes.take fewer).length = fewer :=
      List.length_take_of_le (hlength ▸ hle)
    obtain ⟨best', session', hbest', _, hearliest'⟩ := run_multistart hfewer hlength' hrun'
    refine ⟨best', hearliest', fun clock => answer_eq_ok (job_run_eq hbest' rfl rfl), ?_⟩
    rw [← List.take_append_drop fewer outcomes, List.map_append] at hearliest
    exact hearliest'.isOrBeats hearliest

/-- The best of two constructions with noise is the best of one, or cheaper. -/
theorem answer_multistart_of_noise :
    ∃ inst solver, Instance.build 2 4 [7, 3, 3, 1] [[0, 1, 2], [0, 1, 3]] = .ok inst ∧
      start inst {} (.ofStream (.ofList [3, 1, 4])) = .ok solver ∧
      3 ≤ solver.inst.subsetCount ∧
      (∀ id < solver.inst.subsetCount, solver.inst.costAt id < 2 ^ 63 - 1) ∧
      solver.inst.NoiseFits 5 ∧
      ∃ (outcomes : List IdSet) (best best' : Selection), outcomes.length = 2 ∧
        best.IsEarliestCheapest (outcomes.map (.ofKnown inst)) ∧
        (∀ clock, (solver.answer (.multistart 2 3 5) clock).1 = .ok best) ∧
        (∀ clock, (solver.answer (.multistart 1 3 5) clock).1 = .ok best') ∧
        best'.IsOrBeats best := by
  obtain ⟨inst, hbuild, hcoverable, hcount, hcosts⟩ :
      ∃ inst, Instance.build 2 4 [7, 3, 3, 1] [[0, 1, 2], [0, 1, 3]] = .ok inst ∧
        inst.requireCoverable = .ok () ∧ inst.subsetCount = 4 ∧
        ∀ id < inst.subsetCount, inst.costAt id ≤ 7 :=
    ⟨_, rfl, by with_unfolding_all rfl, rfl, by decide⟩
  obtain ⟨solver, hstart⟩ := exists_start hcoverable {} (.ofStream (.ofList [3, 1, 4]))
  obtain rfl := inst_start hstart
  have hle : 3 ≤ solver.inst.subsetCount := by omega
  have hlow : ∀ id < solver.inst.subsetCount, solver.inst.costAt id < 2 ^ 63 - 1 := fun id hid =>
    Nat.lt_of_le_of_lt (hcosts id hid) (by decide)
  have hfits : solver.inst.NoiseFits 5 := Or.inr fun id hid => by
    have := hcosts id hid
    omega
  obtain ⟨outcomes, _, best, _, hlength, _, hearliest, hanswer, hfewer⟩ :=
    solver.answer_multistart 3 5 (by decide) hle hlow hfits 2 (by decide)
  obtain ⟨best', _, hanswer', hbetter⟩ := hfewer 1 (Nat.le_refl 1) (by decide)
  exact ⟨_, solver, hbuild, hstart, hle, hlow, hfits, outcomes, best, best', hlength, hearliest,
    fun clock => (hanswer clock).1, hanswer', hbetter⟩

end Solver

end SetCover
