import Mathlib.Data.List.Range
import Mathlib.Tactic.TFAE
import SetCover.Proofs.Search.Steering
import SetCover.Proofs.Swap.Drawn

/-!
# Outcomes of random swaps

A random swap is the first one that covers, among a number of swaps that are drawn one after
another. The words to come decide which swaps these are. For some words or other the outcome is any
swap that covers, and where one swap does not cover, all attempts may go to it. Then the selection
is handed back as it is, with whatever size is stored in it.

* `HasStraySwap`, `outcome_of_isFirstSwap`: what the first swap that covers can be.
* `canGive_swap`, `canGive_unchanged`: words for a swap, and words for none.
* `randomSwap_outcomes`: the outcomes for all words.
-/

namespace SetCover

open Search

variable {inst : Instance} {current s : Selection} {ids : IdSet} {source : Source}
  {E : Fault → Session → Prop} {σ : Session}

/-- Some swap does not cover. -/
def HasStraySwap (inst : Instance) (ids : IdSet) : Prop :=
  ∃ out ∈ ids, ∃ into < inst.subsetCount, inst.covers (swap ids out into) = false

theorem outcome_of_isFirstSwap {attempts : Nat} (hsome : 0 < current.ids.toList.length)
    (hpos : 0 < inst.subsetCount) (hattempts : 1 ≤ attempts) {source' : Source}
    (h : IsFirstSwap inst current (swapsToCome inst current.ids attempts source) s source') :
    s.IsSwapOf inst current ∨ s = current ∧ HasStraySwap inst current.ids := by
  unfold IsFirstSwap at h
  split at h
  · next t hfind =>
      have hcovers : t.covers inst current.ids = true := List.find?_some hfind
      obtain ⟨hout, hinto⟩ := mem_swapsToCome (List.mem_of_find?_eq_some hfind)
      exact Or.inl ⟨(t.out, t.into), mem_coveringSwaps.mpr ⟨hout, hinto, hcovers⟩, h.1⟩
  · next hfind =>
      -- the first attempt fails
      have hlength := length_swapsToCome hsome hpos attempts source
      obtain ⟨t, ht⟩ := List.exists_mem_of_length_pos (Nat.lt_of_lt_of_eq hattempts hlength.symm)
      obtain ⟨hout, hinto⟩ := mem_swapsToCome ht
      exact Or.inr ⟨h, t.out, hout, t.into, hinto,
        Bool.eq_false_iff.mpr (List.find?_eq_none.mp hfind t ht)⟩

/-! ## Words for an outcome -/

theorem IdSet.card_le_of_lt {n : Nat} (h : ∀ id ∈ ids, id < n) : ids.card ≤ n := by
  have hsub : ids.toList ⊆ List.range n := fun id hid => List.mem_range.mpr (h id hid)
  have hle := (ids.nodup.subperm hsub).length_le
  rwa [List.length_range] at hle

theorem ledBy_drawMember {i : Fin ids.toList.length} {w : UInt64}
    (haccepts : accepts ids.toList.length w = true) (hscaled : scaled ids.toList.length w = i) :
    LedBy (drawMember ids) [w] (some (ids.toList.get i)) := by
  have hsome : ¬ ids.isEmpty = true := fun hempty =>
    List.ne_nil_of_mem (List.get_mem _ i) (List.isEmpty_iff.mp hempty)
  unfold drawMember
  rw [if_neg hsome]
  exact (ledBy_below haccepts hscaled).bind (ledBy_pure _)

theorem canGive_drawMember {out : Nat} (hcard : ids.card < 2 ^ 64) (hout : out ∈ ids) :
    CanGive (drawMember ids) (some out) := by
  obtain ⟨i, rfl⟩ := List.get_of_mem hout
  obtain ⟨w, haccepts, hscaled⟩ := exists_accepted i.isLt hcard
  exact ⟨[w], ledBy_drawMember haccepts hscaled⟩

/-- The first attempt can be any swap that covers. -/
theorem canGive_swap {attempts : Nat} (hcard : current.ids.card < 2 ^ 64)
    (hcount : inst.subsetCount < 2 ^ 64) (hattempts : 1 ≤ attempts)
    (h : s.IsSwapOf inst current) : CanGive (randomSwap inst attempts current) s := by
  obtain ⟨left, rfl⟩ := Nat.exists_eq_add_of_le' hattempts
  obtain ⟨⟨out, into⟩, hp, hof⟩ := h
  obtain ⟨hout, hinto, hcovers⟩ := mem_coveringSwaps.mp hp
  unfold randomSwap
  rw [if_neg (Nat.ne_zero_of_lt hinto), randomSwapFrom]
  refine (canGive_drawMember hcard hout).bind ?_
  refine (canGive_below hcount ⟨into, hinto⟩).bind ?_
  dsimp only
  rw [if_pos hcovers]
  exact canGive_ofExcept hof

/-- All attempts can go to a swap that does not cover. -/
theorem canGive_unchanged (hcard : current.ids.card < 2 ^ 64)
    (hcount : inst.subsetCount < 2 ^ 64) (h : HasStraySwap inst current.ids) (attempts : Nat) :
    CanGive (randomSwap inst attempts current) current := by
  obtain ⟨out, hout, into, hinto, hfails⟩ := h
  unfold randomSwap
  rw [if_neg (Nat.ne_zero_of_lt hinto)]
  have hall : ∀ left, CanGive (randomSwapFrom inst attempts current left) current := by
    intro left
    induction left with
    | zero => exact (canGive_note _).bind (canGive_pure _)
    | succ left ih =>
        refine (canGive_drawMember hcard hout).bind ?_
        refine (canGive_below hcount ⟨into, hinto⟩).bind ?_
        dsimp only
        rw [if_neg (Bool.eq_false_iff.mp hfails)]
        exact ih
  exact hall attempts

/-! ## All outcomes -/

/-- A selection that covers and knows its size is the outcome of putting back what was taken out. -/
theorem isSwapOf_self (hsome : current.ids ≠ .empty) (hcovers : inst.covers current.ids = true)
    (hcost : current.cost = inst.weight current.ids.toList)
    (hids : ∀ id ∈ current.ids, id < inst.subsetCount) (hsize : current.size = current.ids.card) :
    current.IsSwapOf inst current := by
  obtain ⟨out, hout⟩ := List.exists_mem_of_ne_nil current.ids.toList
    fun hnil => hsome (IdSet.toList_injective hnil)
  have hback : swap current.ids out out = current.ids := swap_self hout
  refine ⟨(out, out), mem_coveringSwaps.mpr ⟨hout, hids out hout, ?_⟩, ?_⟩
  · rw [hback]
    exact hcovers
  · rw [hback, Selection.of_eq_ok hids, ← hcost, ← hsize]

/-- **Random swaps.** From a cover of known ids, not empty and with its own cost, and with at most
`2 ^ 63` subsets and one attempt at least, a random swap is, for one or other stream of words, any
swap that covers. It is the selection itself as well, with the size that is stored in it, exactly if
there is a swap that does not cover. A selection that knows its size is among its own swaps, so then
the outcomes are just the swaps that cover. For each stream the outcome is the first of the swaps to
come that covers, or the selection itself if none of them covers. -/
theorem randomSwap_outcomes (inst : Instance) (hcount : inst.subsetCount ≤ 2 ^ 63)
    (current : Selection) (hcovers : inst.covers current.ids = true)
    (hsome : current.ids ≠ .empty) (hcost : current.cost = inst.weight current.ids.toList)
    (hids : ∀ id ∈ current.ids, id < inst.subsetCount) (attempts : Nat)
    (hattempts : 1 ≤ attempts) :
    (∀ s, List.TFAE [
      ∃ σ σ', (randomSwap inst attempts current).run σ = .ok s σ',
      ∃ words σ', (randomSwap inst attempts current).run ⟨.ofStream (.ofList words), []⟩ =
        .ok s σ',
      s.IsSwapOf inst current ∨ s = current ∧ HasStraySwap inst current.ids]) ∧
    (current.size = current.ids.card → current.IsSwapOf inst current ∧
      ∀ s, (∃ σ σ', (randomSwap inst attempts current).run σ = .ok s σ') ↔
        s.IsSwapOf inst current) ∧
    ∀ σ, (swapsToCome inst current.ids attempts σ.source).length = attempts ∧
      ∃ s σ', (randomSwap inst attempts current).run σ = .ok s σ' ∧
        IsFirstSwap inst current (swapsToCome inst current.ids attempts σ.source) s
          σ'.source := by
  have hlength : 0 < current.ids.toList.length :=
    List.length_pos_iff.mpr fun hnil => hsome (IdSet.toList_injective hnil)
  have hpos : 0 < inst.subsetCount :=
    Nat.zero_lt_of_lt (hids _ (List.get_mem _ ⟨0, hlength⟩))
  have hcard := IdSet.card_le_of_lt hids
  have hends : ∀ σ, Ends (randomSwap inst attempts current) noFault (fun s σ' =>
      IsFirstSwap inst current (swapsToCome inst current.ids attempts σ.source) s σ'.source) σ :=
    fun σ => ends_randomSwap_first attempts hids
  have hall : ∀ s, List.TFAE [
      ∃ σ σ', (randomSwap inst attempts current).run σ = .ok s σ',
      ∃ words σ', (randomSwap inst attempts current).run ⟨.ofStream (.ofList words), []⟩ =
        .ok s σ',
      s.IsSwapOf inst current ∨ s = current ∧ HasStraySwap inst current.ids] := by
    intro s
    tfae_have 1 → 3 := fun ⟨σ, _, hrun⟩ =>
      outcome_of_isFirstSwap hlength hpos hattempts ((hends σ).of_run hrun)
    tfae_have 3 → 2 := by
      rintro (hswap | ⟨rfl, hstray⟩)
      · exact (canGive_swap (by omega) (by omega) hattempts hswap).exists_run
      · exact (canGive_unchanged (by omega) (by omega) hstray attempts).exists_run
    tfae_have 2 → 1 := fun ⟨_, hrun⟩ => ⟨_, hrun⟩
    tfae_finish
  refine ⟨hall, fun hsize => ?_, fun σ =>
    ⟨length_swapsToCome hlength hpos attempts σ.source, (hends σ).exists_run⟩⟩
  have hself := isSwapOf_self hsome hcovers hcost hids hsize
  refine ⟨hself, fun s => ((hall s).out 0 2).trans ?_⟩
  constructor
  · rintro (hswap | ⟨rfl, _⟩)
    · exact hswap
    · exact hself
  · exact Or.inl

/-- Subset 0 may give way to subset 1, and the three other swaps of it cover nothing but what it
covers, or too little. -/
theorem randomSwap_outcomes_of_two_holders :
    ∃ inst, Instance.build 2 4 [7, 3, 3, 1] [[0, 1, 2], [0, 1, 3]] = .ok inst ∧
      inst.subsetCount ≤ 2 ^ 63 ∧ inst.covers (.ofList [0]) = true ∧
      IdSet.ofList [0] ≠ .empty ∧ 7 = inst.weight [0] ∧
      (∀ id ∈ IdSet.ofList [0], id < inst.subsetCount) ∧ 1 ≤ 2 ∧
      (∃ words σ', (randomSwap inst 2 ⟨7, 1, .ofList [0]⟩).run ⟨.ofStream (.ofList words), []⟩ =
        .ok ⟨3, 1, .ofList [1]⟩ σ') ∧
      (∃ words σ', (randomSwap inst 2 ⟨7, 1, .ofList [0]⟩).run ⟨.ofStream (.ofList words), []⟩ =
        .ok ⟨7, 1, .ofList [0]⟩ σ') ∧
      ¬ ∃ σ σ', (randomSwap inst 2 ⟨7, 1, .ofList [0]⟩).run σ = .ok ⟨3, 1, .ofList [2]⟩ σ' := by
  obtain ⟨inst, hbuild, hcount, hcovers, hcost, hids, hswaps, hother, hself⟩ :
      ∃ inst, Instance.build 2 4 [7, 3, 3, 1] [[0, 1, 2], [0, 1, 3]] = .ok inst ∧
        inst.subsetCount = 4 ∧ inst.covers (.ofList [0]) = true ∧ 7 = inst.weight [0] ∧
        (∀ id ∈ IdSet.ofList [0], id < inst.subsetCount) ∧
        coveringSwaps inst (.ofList [0]) = [(0, 0), (0, 1)] ∧
        Selection.of inst (swap (.ofList [0]) 0 1) = .ok ⟨3, 1, .ofList [1]⟩ ∧
        Selection.of inst (swap (.ofList [0]) 0 0) = .ok ⟨7, 1, .ofList [0]⟩ :=
    ⟨_, rfl, rfl, by decide +kernel, by decide, by decide, by decide +kernel, by rfl, by rfl⟩
  have hsome : IdSet.ofList [0] ≠ .empty := by decide
  obtain ⟨hall, _, _⟩ := randomSwap_outcomes inst (by omega) ⟨7, 1, .ofList [0]⟩ hcovers hsome
    hcost hids 2 (by decide)
  refine ⟨inst, hbuild, by omega, hcovers, hsome, hcost, hids, by decide, ?_, ?_, ?_⟩
  · refine ((hall _).out 1 2).mpr ?_
    exact Or.inl ⟨(0, 1), hswaps ▸ List.mem_cons_of_mem _ List.mem_cons_self, hother⟩
  · refine ((hall _).out 1 2).mpr ?_
    exact Or.inl ⟨(0, 0), hswaps ▸ List.mem_cons_self, hself⟩
  · intro hrun
    rcases ((hall _).out 0 2).mp hrun with ⟨p, hp, hof⟩ | ⟨hsame, _⟩
    · rw [hswaps] at hp
      rcases List.mem_pair.mp hp with rfl | rfl
      · exact absurd (Except.ok.inj (hself.symm.trans hof)) (by decide)
      · exact absurd (Except.ok.inj (hother.symm.trans hof)) (by decide)
    · exact absurd hsame (by decide)

/-- A cover that takes itself for larger than it is comes out of a failed attempt as it went in, and
so is the outcome of no swap. -/
theorem unchanged_of_stale_size :
    ∃ inst, Instance.build 1 2 [3, 4] [[0]] = .ok inst ∧ inst.subsetCount ≤ 2 ^ 63 ∧
      inst.covers (.ofList [0]) = true ∧ IdSet.ofList [0] ≠ .empty ∧ 3 = inst.weight [0] ∧
      (∀ id ∈ IdSet.ofList [0], id < inst.subsetCount) ∧ 1 ≤ 1 ∧
      (∃ σ', (randomSwap inst 1 ⟨3, 5, .ofList [0]⟩).run
          ⟨.ofStream (.ofList [0, 0x8000000000000000]), []⟩ = .ok ⟨3, 5, .ofList [0]⟩ σ') ∧
      ¬ Selection.IsSwapOf inst ⟨3, 5, .ofList [0]⟩ ⟨3, 5, .ofList [0]⟩ := by
  obtain ⟨inst, hbuild, hcount, hcovers, hcost, hids, hfails⟩ :
      ∃ inst, Instance.build 1 2 [3, 4] [[0]] = .ok inst ∧ inst.subsetCount = 2 ∧
        inst.covers (.ofList [0]) = true ∧ 3 = inst.weight [0] ∧
        (∀ id ∈ IdSet.ofList [0], id < inst.subsetCount) ∧
        ¬ inst.covers (swap (.ofList [0]) 0 1) = true :=
    ⟨_, rfl, rfl, by decide +kernel, by decide, by decide, by decide +kernel⟩
  have hout : LedBy (drawMember (.ofList [0])) [0] (some 0) :=
    ledBy_drawMember (i := ⟨0, by decide⟩) (by decide) (by decide)
  have hinto : LedBy (below inst.subsetCount) [0x8000000000000000] ⟨1, by omega⟩ := by
    apply ledBy_below
    · rw [hcount]
      decide +kernel
    · show scaled inst.subsetCount 0x8000000000000000 = 1
      rw [hcount]
      decide +kernel
  have hled : LedBy (randomSwap inst 1 ⟨3, 5, .ofList [0]⟩) [0, 0x8000000000000000]
      ⟨3, 5, .ofList [0]⟩ := by
    unfold randomSwap
    rw [if_neg (by omega), randomSwapFrom]
    refine hout.bind (hinto.bind ?_)
    dsimp only
    rw [if_neg hfails]
    exact (ledBy_note _).bind (ledBy_pure _)
  refine ⟨inst, hbuild, by omega, hcovers, by decide, hcost, hids, by decide, hled.exists_run, ?_⟩
  intro hswap
  exact absurd hswap.isCover.consistent.size_eq (by decide)

end SetCover
