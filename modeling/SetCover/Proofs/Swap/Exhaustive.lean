import Mathlib.Data.List.MinMax
import SetCover.Proofs.Instance.Exchange
import SetCover.Swap.Best

/-!
# The best swap by plain enumeration

`exhaustiveSwap` carries every swap out, keeps those whose ids cover when all elements are looked
at, and takes the first one of minimal weight. `bestSwap` looks at the elements without cover only,
computes costs from the cost before, and skips a swap on its cost before it looks at its cover.

* `bestSwap_eq`: both find the same swap of a cover.
* `exhaustiveSwap_spec`: what is found is a cheapest swap that covers.
* `bestSwap_exhaustive`: so the search is plain enumeration, and never makes a cover worse.
-/

namespace SetCover

variable {inst : Instance} {current : Selection}

/-- The weight of the ids after a swap, given by the subset taken out and the subset put in. -/
def swapWeight (inst : Instance) (ids : IdSet) (p : Nat × Nat) : Nat :=
  inst.weight (swap ids p.1 p.2).toList

/-- All swaps: the subsets taken out in ascending order, and for each of them all replacements in
ascending order. -/
def allSwaps (inst : Instance) (ids : IdSet) : List (Nat × Nat) :=
  ids.toList.flatMap fun out => (List.range inst.subsetCount).map fun into => (out, into)

/-- The swaps whose ids cover. -/
def coveringSwaps (inst : Instance) (ids : IdSet) : List (Nat × Nat) :=
  (allSwaps inst ids).filter fun p => inst.covers (swap ids p.1 p.2)

/-- The selection after the first cheapest swap that covers; the selection itself without one. -/
def exhaustiveSwap (inst : Instance) (current : Selection) : Except Fault Selection :=
  match (coveringSwaps inst current.ids).argmin (swapWeight inst current.ids) with
  | some p => Selection.of inst (swap current.ids p.1 p.2)
  | none => .ok current

theorem mem_allSwaps {ids : IdSet} {p : Nat × Nat} :
    p ∈ allSwaps inst ids ↔ p.1 ∈ ids ∧ p.2 < inst.subsetCount := by
  obtain ⟨out, into⟩ := p
  simp [allSwaps, IdSet.mem_def]

theorem mem_coveringSwaps {ids : IdSet} {p : Nat × Nat} :
    p ∈ coveringSwaps inst ids ↔
      p.1 ∈ ids ∧ p.2 < inst.subsetCount ∧ inst.covers (swap ids p.1 p.2) = true := by
  rw [coveringSwaps, List.mem_filter, mem_allSwaps, and_assoc]

/-! ## The search as a fold -/

/-- A swap as the search keeps it. -/
def trialOf (inst : Instance) (ids : IdSet) (p : Nat × Nat) : Trial :=
  ⟨swapWeight inst ids p, p.1, p.2⟩

/-- The better of the best swap so far and another one, which has to be cheaper. -/
def betterSwap (inst : Instance) (ids : IdSet) (best : Option (Nat × Nat)) (p : Nat × Nat) :
    Option (Nat × Nat) :=
  List.argAux (fun p q => swapWeight inst ids p < swapWeight inst ids q) best p

/-- A swap is looked at: it counts if it covers. -/
def considerSwap (inst : Instance) (ids : IdSet) (best : Option (Nat × Nat)) (p : Nat × Nat) :
    Option (Nat × Nat) :=
  if inst.covers (swap ids p.1 p.2) then betterSwap inst ids best p else best

theorem betterSwap_eq_of_isBeaten {ids : IdSet} {best : Option (Nat × Nat)} {p : Nat × Nat}
    (h : Trial.isBeaten (best.map (trialOf inst ids)) (swapWeight inst ids p) = true) :
    betterSwap inst ids best p = best := by
  cases best with
  | none => simp [Trial.isBeaten] at h
  | some q =>
      have hle : swapWeight inst ids q ≤ swapWeight inst ids p := by
        simpa [Trial.isBeaten, trialOf] using h
      exact if_neg (Nat.not_lt.mpr hle)

theorem betterSwap_eq_of_not_isBeaten {ids : IdSet} {best : Option (Nat × Nat)} {p : Nat × Nat}
    (h : Trial.isBeaten (best.map (trialOf inst ids)) (swapWeight inst ids p) = false) :
    betterSwap inst ids best p = some p := by
  cases best with
  | none => rfl
  | some q =>
      have hlt : swapWeight inst ids p < swapWeight inst ids q := by
        simpa [Trial.isBeaten, trialOf] using h
      exact if_pos hlt

theorem holdsAll_orphans_eq {ids : IdSet} {out into : Nat} (hcovers : inst.covers ids = true) :
    inst.holdsAll into (inst.orphans ids out) = .ok (inst.covers (swap ids out into)) := by
  rw [Instance.holdsAll_eq Instance.orphans_lt]
  congr 1
  rw [Bool.eq_iff_iff, decide_eq_true_iff, Instance.covers_iff,
    Instance.covers_swap_iff_of_covers (Instance.covers_iff.mp hcovers)]

theorem bestStep_eq (hcost : current.cost = inst.weight current.ids.toList)
    (hids : ∀ id ∈ current.ids, id < inst.subsetCount)
    (hcovers : inst.covers current.ids = true) {out into : Nat} (hout : out ∈ current.ids)
    (hinto : into < inst.subsetCount) (best : Option (Nat × Nat)) :
    bestStep inst current out (inst.orphans current.ids out)
        (best.map (trialOf inst current.ids)) into =
      .ok ((considerSwap inst current.ids best (out, into)).map (trialOf inst current.ids)) := by
  have hafter : costAfter inst current out into =
      .ok (swapWeight inst current.ids (out, into)) := costAfter_eq hcost hids hout hinto
  unfold bestStep considerSwap
  rw [hafter]
  show (if _ then _ else _) = _
  cases hbeaten : Trial.isBeaten (best.map (trialOf inst current.ids))
      (swapWeight inst current.ids (out, into)) with
  | true =>
      rw [if_pos rfl, betterSwap_eq_of_isBeaten hbeaten, ite_self]
      rfl
  | false =>
      rw [if_neg (by simp), betterSwap_eq_of_not_isBeaten hbeaten, holdsAll_orphans_eq hcovers]
      show (if _ then _ else _) = _
      split <;> rfl

/-- A fold of steps that succeed is the fold of what they give, whatever stands for it. -/
theorem foldlM_ok {α β γ : Type} {enc : γ → β} {step : β → α → Except Fault β}
    {next : γ → α → γ} (l : List α)
    (hstep : ∀ c, ∀ a ∈ l, step (enc c) a = .ok (enc (next c a))) (c : γ) :
    l.foldlM step (enc c) = .ok (enc (l.foldl next c)) := by
  induction l generalizing c with
  | nil => rfl
  | cons a l ih =>
      rw [List.foldlM_cons, hstep c a (by simp)]
      exact ih (fun c b hb => hstep c b (List.mem_cons_of_mem _ hb)) _

theorem foldl_considerSwap (inst : Instance) (ids : IdSet) :
    ids.toList.foldl (fun best out => (List.range inst.subsetCount).foldl
      (fun best into => considerSwap inst ids best (out, into)) best) none =
      (coveringSwaps inst ids).argmin (swapWeight inst ids) := by
  rw [List.argmin, coveringSwaps, List.foldl_filter, allSwaps, List.foldl_flatMap]
  simp only [List.foldl_map]
  rfl

/-- The search finds the swap that plain enumeration finds. -/
theorem bestSwap_eq (hcost : current.cost = inst.weight current.ids.toList)
    (hids : ∀ id ∈ current.ids, id < inst.subsetCount)
    (hcovers : inst.covers current.ids = true) :
    bestSwap inst current = exhaustiveSwap inst current := by
  have hinto : ∀ best, ∀ out ∈ current.ids.toList,
      bestInto inst current (best.map (trialOf inst current.ids)) out =
        .ok (((List.range inst.subsetCount).foldl
          (fun best into => considerSwap inst current.ids best (out, into)) best).map
            (trialOf inst current.ids)) := by
    intro best out hout
    rw [bestInto, Instance.orphansOf_eq (hids out hout)]
    exact foldlM_ok _
      (fun best into hin =>
        bestStep_eq hcost hids hcovers hout (List.mem_range.mp hin) best) best
  have hfold := foldlM_ok current.ids.toList hinto none
  rw [foldl_considerSwap] at hfold
  unfold bestSwap exhaustiveSwap
  rw [show (none : Option Trial) = Option.map (trialOf inst current.ids) none from rfl, hfold]
  cases (coveringSwaps inst current.ids).argmin (swapWeight inst current.ids) <;> rfl

/-! ## What is found -/

/-- Without ids there is no swap; with ids that cover, the result is a cheapest swap that covers,
and the swap that changes nothing is one of those it is compared with. -/
theorem exhaustiveSwap_spec (hids : ∀ id ∈ current.ids, id < inst.subsetCount)
    (hcovers : inst.covers current.ids = true) :
    (current.ids = .empty ∧ exhaustiveSwap inst current = .ok current) ∨
      ∃ p ∈ coveringSwaps inst current.ids,
        exhaustiveSwap inst current = .ok ⟨swapWeight inst current.ids p,
          (swap current.ids p.1 p.2).card, swap current.ids p.1 p.2⟩ ∧
        (∀ q ∈ coveringSwaps inst current.ids,
          swapWeight inst current.ids p ≤ swapWeight inst current.ids q) ∧
        swapWeight inst current.ids p ≤ inst.weight current.ids.toList := by
  have hself : ∀ out ∈ current.ids, (out, out) ∈ coveringSwaps inst current.ids := by
    intro out hout
    refine mem_coveringSwaps.mpr ⟨hout, hids out hout, ?_⟩
    rw [swap_self hout]
    exact hcovers
  unfold exhaustiveSwap
  cases hmin : (coveringSwaps inst current.ids).argmin (swapWeight inst current.ids) with
  | none =>
      left
      have hempty : coveringSwaps inst current.ids = [] := List.argmin_eq_none.mp hmin
      refine ⟨IdSet.ext_mem fun a => ⟨fun ha => ?_, fun ha => absurd ha IdSet.not_mem_empty⟩, rfl⟩
      have := hself a ha
      rw [hempty] at this
      cases this
  | some p =>
      right
      have hmem := List.argmin_mem hmin
      obtain ⟨hout, hinto, _⟩ := mem_coveringSwaps.mp hmem
      refine ⟨p, hmem, Selection.of_eq_ok (swap_lt hids hinto), ?_, ?_⟩
      · intro q hq
        exact List.le_of_mem_argmin hq hmin
      · have hle := List.le_of_mem_argmin (hself p.1 hout) hmin
        rwa [swapWeight, swapWeight, swap_self hout] at hle

/-- **The best swap.** For a cover of known ids with its own cost, the search gives what plain
enumeration gives: a cover that costs no more, and the cover itself when it has no ids. -/
theorem bestSwap_exhaustive (inst : Instance) (current : Selection)
    (hcost : current.cost = inst.weight current.ids.toList)
    (hids : ∀ id ∈ current.ids, id < inst.subsetCount)
    (hcovers : inst.covers current.ids = true) :
    bestSwap inst current = exhaustiveSwap inst current ∧
      (current.ids = .empty → bestSwap inst current = .ok current) ∧
      ∃ s, bestSwap inst current = .ok s ∧ inst.covers s.ids = true ∧ s.cost ≤ current.cost := by
  rw [bestSwap_eq hcost hids hcovers]
  rcases exhaustiveSwap_spec hids hcovers with ⟨_, hsame⟩ | ⟨p, hp, hfound, _, hle⟩
  · exact ⟨rfl, fun _ => hsame, current, hsame, hcovers, Nat.le_refl _⟩
  · obtain ⟨hout, _, hswap⟩ := mem_coveringSwaps.mp hp
    refine ⟨rfl, fun hempty => ?_, _, hfound, hswap, by rw [hcost]; exact hle⟩
    rw [hempty] at hout
    exact absurd hout IdSet.not_mem_empty

/-- Two replacements are equally cheap, and the first of them is taken. -/
theorem bestSwap_of_tie :
    ∃ inst, Instance.build 2 4 [7, 3, 3, 1] [[0, 1, 2], [0, 1, 2, 3]] = .ok inst ∧
      7 = inst.weight [0] ∧ (∀ id ∈ IdSet.ofList [0], id < inst.subsetCount) ∧
      inst.covers (.ofList [0]) = true ∧
      bestSwap inst ⟨7, 1, .ofList [0]⟩ = .ok ⟨3, 1, .ofList [1]⟩ := by
  refine ⟨_, rfl, by decide, by decide, by decide +kernel, ?_⟩
  exact (bestSwap_exhaustive _ ⟨7, 1, .ofList [0]⟩ (by decide) (by decide)
    (by decide +kernel)).1.trans (by with_unfolding_all rfl)

end SetCover
