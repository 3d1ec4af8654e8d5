import SetCover.Proofs.Search.Sampling
import SetCover.Proofs.Swap.Exhaustive
import SetCover.Swap.Sweep

/-!
# Sweeps by plain enumeration

A sweep skips a swap on its cost before it looks at its cover, and keeps the places of the best swap
only. Still it draws one replacement for every id, also for a swap that it skips, and what it
carries out is the first cheapest of all swaps drawn that cover. Whether the selection itself covers
does not matter.

* `cheapestOf`: the selection after the first cheapest of several swaps that cover.
* `ends_sweepStep_considered`, `ends_foldlM_sweepStep`: one swap of a sweep, and all of them.
* `ends_sweep_cheapest`, `sweep_cheapest`: what a sweep draws, and what it gives.
-/

namespace SetCover

open Search

variable {inst : Instance} {current : Selection} {E : Fault → Session → Prop} {σ : Session}

/-! ## The reference -/

/-- The selection after the first cheapest of several swaps that cover; the selection itself if none
of them covers. -/
def cheapestOf (inst : Instance) (current : Selection) (tried : List (Nat × Nat)) :
    Except Fault Selection :=
  match (tried.filter fun p => inst.covers (swap current.ids p.1 p.2)).argmin
      (swapWeight inst current.ids) with
  | some p => Selection.of inst (swap current.ids p.1 p.2)
  | none => .ok current

/-- Settling on the swap that looking at all of them leaves is taking the first cheapest. -/
theorem settle_foldl_considerSwap (inst : Instance) (current : Selection)
    (tried : List (Nat × Nat)) :
    settle inst current
        ((tried.foldl (considerSwap inst current.ids) none).map (trialOf inst current.ids)) =
      cheapestOf inst current tried := by
  have hfold : tried.foldl (considerSwap inst current.ids) none =
      (tried.filter fun p => inst.covers (swap current.ids p.1 p.2)).argmin
        (swapWeight inst current.ids) := by
    rw [List.argmin, List.foldl_filter]
    rfl
  rw [hfold, cheapestOf]
  split
  · next p hp =>
      rw [hp]
      rfl
  · next hp =>
      rw [hp]
      rfl

theorem exists_cheapestOf {tried : List (Nat × Nat)}
    (hids : ∀ id ∈ current.ids, id < inst.subsetCount)
    (htried : ∀ p ∈ tried, p.2 < inst.subsetCount) :
    ∃ s, cheapestOf inst current tried = .ok s := by
  unfold cheapestOf
  split
  · next p hp =>
      have hmem := (List.mem_filter.mp (List.argmin_mem hp)).1
      exact ⟨_, Selection.of_eq_ok (swap_lt hids (htried p hmem))⟩
  · exact ⟨current, rfl⟩

/-! ## The sweep as a fold -/

/-- A swap that costs too much is drawn all the same. -/
theorem ends_sweepStep_considered (hcost : current.cost = inst.weight current.ids.toList)
    (hids : ∀ id ∈ current.ids, id < inst.subsetCount) (hpos : 0 < inst.subsetCount) {out : Nat}
    (hout : out ∈ current.ids) (best : Option (Nat × Nat)) :
    Ends (sweepStep inst current (best.map (trialOf inst current.ids)) out) E (fun best' σ' =>
      best' = (considerSwap inst current.ids best
        (out, (σ.source.below inst.subsetCount hpos).1.val)).map (trialOf inst current.ids) ∧
      σ' = { σ with source := (σ.source.below inst.subsetCount hpos).2 }) σ := by
  unfold sweepStep
  refine ends_below_run_bind hpos ?_
  generalize (σ.source.below inst.subsetCount hpos).1 = into
  have hafter : costAfter inst current out into =
      .ok (swapWeight inst current.ids (out, into.val)) := costAfter_eq hcost hids hout into.isLt
  refine ends_ofExcept_bind hafter ?_
  unfold considerSwap
  refine ends_ite (fun hbeaten => ends_pure ⟨?_, rfl⟩) fun hopen => ends_ite
    (fun hcovers => ends_pure ⟨?_, rfl⟩) fun hfails => ends_pure ⟨?_, rfl⟩
  · rw [betterSwap_eq_of_isBeaten hbeaten, ite_self]
  · rw [if_pos hcovers, betterSwap_eq_of_not_isBeaten (Bool.eq_false_iff.mpr hopen)]
    rfl
  · rw [if_neg hfails]

theorem ends_foldlM_sweepStep (hcost : current.cost = inst.weight current.ids.toList)
    (hids : ∀ id ∈ current.ids, id < inst.subsetCount) (hpos : 0 < inst.subsetCount)
    (outs : List Nat) (houts : ∀ out ∈ outs, out ∈ current.ids) (best : Option (Nat × Nat)) :
    Ends (outs.foldlM (sweepStep inst current) (best.map (trialOf inst current.ids))) E
      (fun best' σ' =>
        best' =
          ((outs.zip ((σ.source.sample inst.subsetCount hpos outs.length).1.map Fin.val)).foldl
            (considerSwap inst current.ids) best).map (trialOf inst current.ids) ∧
        σ' = { σ with source := (σ.source.sample inst.subsetCount hpos outs.length).2 }) σ := by
  induction outs generalizing best σ with
  | nil => exact ends_pure ⟨rfl, rfl⟩
  | cons out outs ih =>
      rw [List.foldlM_cons]
      refine ends_bind (ends_sweepStep_considered hcost hids hpos
        (houts out List.mem_cons_self) best) ?_
      rintro _ _ ⟨rfl, rfl⟩
      have houts := fun out hout => houts out (List.mem_cons_of_mem _ hout)
      exact ih (σ := { σ with source := (σ.source.below inst.subsetCount hpos).2 }) houts
        (considerSwap inst current.ids best (out, (σ.source.below inst.subsetCount hpos).1.val))

theorem ends_sweep_cheapest (hpos : 0 < inst.subsetCount)
    (hcost : current.cost = inst.weight current.ids.toList)
    (hids : ∀ id ∈ current.ids, id < inst.subsetCount) :
    Ends (sweep inst current) E (fun s σ' =>
      cheapestOf inst current (current.ids.toList.zip
        ((σ.source.sample inst.subsetCount hpos current.ids.card).1.map Fin.val)) = .ok s ∧
      σ' = { σ with source := (σ.source.sample inst.subsetCount hpos current.ids.card).2 }) σ := by
  unfold sweep
  rw [if_neg (Nat.ne_of_gt hpos)]
  refine ends_bind (ends_foldlM_sweepStep hcost hids hpos _ (fun _ h => h) none) ?_
  rintro best _ ⟨rfl, rfl⟩
  have hknown : ∀ p ∈ current.ids.toList.zip
      ((σ.source.sample inst.subsetCount hpos current.ids.card).1.map Fin.val),
      p.2 < inst.subsetCount := fun p hp => Source.lt_of_mem_sample (List.of_mem_zip hp).2
  obtain ⟨s, hs⟩ := exists_cheapestOf hids hknown
  exact ends_ofExcept_ok ((settle_foldl_considerSwap inst current _).trans hs) ⟨hs, rfl⟩

/-- **Sweeps.** For known ids with their own cost, which need not cover, a sweep draws one
replacement for each id in ascending order of the ids and nothing else, and gives the selection
after the first cheapest of these swaps that cover, or the selection itself if none of them
covers. -/
theorem sweep_cheapest (inst : Instance) (hpos : 0 < inst.subsetCount) (current : Selection)
    (hcost : current.cost = inst.weight current.ids.toList)
    (hids : ∀ id ∈ current.ids, id < inst.subsetCount) (σ : Session) :
    ∃ intos after, σ.source.sample inst.subsetCount hpos current.ids.card = (intos, after) ∧
      intos.length = current.ids.card ∧
      ∃ s, (sweep inst current).run σ = .ok s { σ with source := after } ∧
        cheapestOf inst current (current.ids.toList.zip (intos.map Fin.val)) = .ok s := by
  obtain ⟨s, _, hrun, hs, rfl⟩ := (ends_sweep_cheapest (σ := σ) hpos hcost hids).exists_run
  exact ⟨_, _, rfl, σ.source.length_sample inst.subsetCount hpos current.ids.card, s, hrun, hs⟩

/-- The first swap changes nothing, the two others remove an id each and cost the same, and the
first of these is taken. -/
theorem sweep_of_tie :
    ∃ inst, Instance.build 2 4 [7, 3, 3, 1] [[0, 1, 2], [0, 1, 2, 3]] = .ok inst ∧
      0 < inst.subsetCount ∧ 13 = inst.weight [0, 1, 2] ∧
      (∀ id ∈ IdSet.ofList [0, 1, 2], id < inst.subsetCount) ∧
      (sweep inst ⟨13, 3, .ofList [0, 1, 2]⟩).run
          ⟨.ofStream (.ofList [0, 0, 0x4000000000000000]), []⟩ =
        .ok ⟨10, 2, .ofList [0, 2]⟩ ⟨.ofPlace (.ofList [0, 0, 0x4000000000000000]) 3, []⟩ := by
  obtain ⟨inst, hbuild, hcount, hcost, hids, hbest⟩ :
      ∃ inst, Instance.build 2 4 [7, 3, 3, 1] [[0, 1, 2], [0, 1, 2, 3]] = .ok inst ∧
        inst.subsetCount = 4 ∧ 13 = inst.weight [0, 1, 2] ∧
        (∀ id ∈ IdSet.ofList [0, 1, 2], id < inst.subsetCount) ∧
        cheapestOf inst ⟨13, 3, .ofList [0, 1, 2]⟩ [(0, 0), (1, 0), (2, 1)] =
          .ok ⟨10, 2, .ofList [0, 2]⟩ :=
    ⟨_, rfl, rfl, by decide, by decide, by with_unfolding_all rfl⟩
  have hpos : 0 < inst.subsetCount := by omega
  obtain ⟨intos, after, hsample, _, s, hrun, hs⟩ := sweep_cheapest inst hpos
    ⟨13, 3, .ofList [0, 1, 2]⟩ hcost hids ⟨.ofStream (.ofList [0, 0, 0x4000000000000000]), []⟩
  obtain ⟨drawn, hdrawn, hvalues⟩ := Source.exists_sample_ofList [0, 0, 0x4000000000000000] hpos
    (by rw [hcount]; decide +kernel)
  obtain ⟨rfl, rfl⟩ := Prod.mk.inj (hsample.symm.trans hdrawn)
  have hswaps : [0, 1, 2].zip (intos.map Fin.val) = [(0, 0), (1, 0), (2, 1)] := by
    rw [hvalues, hcount]
    decide +kernel
  obtain rfl := Except.ok.inj (hs.symm.trans ((congrArg _ hswaps).trans hbest))
  exact ⟨inst, hbuild, hpos, hcost, hids, hrun⟩

end SetCover
