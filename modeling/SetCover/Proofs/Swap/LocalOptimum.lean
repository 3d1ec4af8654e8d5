import Mathlib.Dynamics.PeriodicPts.Defs
import SetCover.Proofs.Swap.Tour

/-!
# Best swaps one after another

The best swap is carried out again and again. Its cost never goes up, but it may stay the same while
the ids change, so the cost alone does not say that this comes to an end. What does is the order in
which the swaps are tried: the swap that takes the least id out and puts it back costs as much as
the selection, and it is tried after those swaps only that put a smaller id in its place. So a swap
that does not lower the cost lowers the least id, or changes nothing.

* `bestSwap_step`: a best swap keeps the ids, lowers the cost, or keeps the cost and lowers the
  least id.
* `bestSwaps_steady`: the run becomes constant.
* `Selection.le_of_steady`, `Selection.not_covers_erase_of_steady`: what holds where it is constant.
* `bestSwaps_settle`: every run ends in a local optimum and comes back to nothing it has left.
-/

namespace SetCover

variable {inst : Instance} {current s : Selection}

/-! ## The first of the cheapest swaps -/

/-- The smallest id; zero without ids. -/
def IdSet.least (ids : IdSet) : Nat := ids.toList.headD 0

namespace IdSet

variable {ids : IdSet} {a : Nat}

theorem least_mem (h : a ∈ ids) : ids.least ∈ ids := by
  obtain ⟨l, hl⟩ := ids
  cases l with
  | nil => exact absurd h List.not_mem_nil
  | cons b l => exact List.mem_cons_self

theorem least_le (h : a ∈ ids) : ids.least ≤ a := by
  obtain ⟨l, hl⟩ := ids
  cases l with
  | nil => exact absurd h List.not_mem_nil
  | cons b l =>
      rcases List.mem_cons.mp h with heq | hin
      · exact Nat.le_of_eq heq.symm
      · exact Nat.le_of_lt (List.rel_of_pairwise_cons hl hin)

end IdSet

/-- A swap is tried before another one. -/
def TriedBefore (p q : Nat × Nat) : Prop := p.1 < q.1 ∨ p.1 = q.1 ∧ p.2 < q.2

theorem pairwise_coveringSwaps (inst : Instance) (ids : IdSet) :
    (coveringSwaps inst ids).Pairwise TriedBefore := by
  refine List.Pairwise.filter _ (List.pairwise_flatMap.mpr ⟨?_, ?_⟩)
  · intro out _
    refine List.pairwise_map.mpr (List.pairwise_lt_range.imp ?_)
    intro i j hij
    exact Or.inr ⟨rfl, hij⟩
  · refine ids.ascending.imp ?_
    intro out out' hlt p hp q hq
    simp only [List.mem_map] at hp hq
    obtain ⟨i, _, rfl⟩ := hp
    obtain ⟨j, _, rfl⟩ := hq
    exact Or.inl hlt

/-- Of two entries of an ordered list, the one with the smaller place comes first. -/
theorem eq_or_rel_of_idxOf_le {α : Type} [DecidableEq α] {R : α → α → Prop} {l : List α} {a b : α}
    (hl : l.Pairwise R) (ha : a ∈ l) (hb : b ∈ l) (h : l.idxOf a ≤ l.idxOf b) : a = b ∨ R a b := by
  rcases Nat.eq_or_lt_of_le h with heq | hlt
  · exact Or.inl ((List.idxOf_inj ha).mp heq)
  · have hrel := List.pairwise_iff_getElem.mp hl _ _ (List.idxOf_lt_length_of_mem ha)
      (List.idxOf_lt_length_of_mem hb) hlt
    simp only [List.getElem_idxOf] at hrel
    exact Or.inr hrel

/-- The first of the cheapest swaps keeps the ids, lowers the cost, or puts a smaller id in the
place of the least. -/
theorem swap_of_argmin {ids : IdSet} {p : Nat × Nat}
    (hids : ∀ id ∈ ids, id < inst.subsetCount) (hcovers : inst.covers ids = true)
    (hp : (coveringSwaps inst ids).argmin (swapWeight inst ids) = some p) :
    swap ids p.1 p.2 = ids ∨ swapWeight inst ids p < inst.weight ids.toList ∨
      swapWeight inst ids p = inst.weight ids.toList ∧ (swap ids p.1 p.2).least < ids.least := by
  have hmem := List.argmin_mem hp
  obtain ⟨hout, _, _⟩ := mem_coveringSwaps.mp hmem
  have hleast : ids.least ∈ ids := IdSet.least_mem hout
  have hself : swapWeight inst ids (ids.least, ids.least) = inst.weight ids.toList := by
    rw [swapWeight, swap_self hleast]
  have hback : (ids.least, ids.least) ∈ coveringSwaps inst ids := by
    refine mem_coveringSwaps.mpr ⟨hleast, hids _ hleast, ?_⟩
    rw [swap_self hleast]
    exact hcovers
  rcases Nat.lt_or_ge (swapWeight inst ids p) (inst.weight ids.toList) with hlt | hge
  · exact Or.inr (Or.inl hlt)
  · have heq : swapWeight inst ids p = inst.weight ids.toList := by
      have hle := List.le_of_mem_argmin hback hp
      omega
    have hfirst : p = (ids.least, ids.least) ∨ TriedBefore p (ids.least, ids.least) :=
      eq_or_rel_of_idxOf_le (pairwise_coveringSwaps inst ids) hmem hback
        (List.index_of_argmin hp hback (by omega))
    rcases hfirst with hsame | hbefore | ⟨hpout, hpinto⟩
    · rw [hsame]
      exact Or.inl (swap_self hleast)
    · exact absurd (IdSet.least_le hout) (Nat.not_le.mpr hbefore)
    · refine Or.inr (Or.inr ⟨heq, Nat.lt_of_le_of_lt (IdSet.least_le ?_) hpinto⟩)
      exact mem_swap.mpr (Or.inl rfl)

/-! ## One best swap -/

/-- A cheaper selection, or one that costs the same and has a smaller least id. -/
def Selection.Betters (s' s : Selection) : Prop :=
  s'.cost < s.cost ∨ s'.cost = s.cost ∧ s'.ids.least < s.ids.least

theorem Selection.betters_wf : WellFounded Selection.Betters := by
  have hlex := WellFounded.prod_lex Nat.lt_wfRel.wf Nat.lt_wfRel.wf
  refine Subrelation.wf ?_ (InvImage.wf (fun s : Selection => (s.cost, s.ids.least)) hlex)
  intro s' s h
  exact Prod.lex_iff.mpr h

theorem Selection.isPriced_iff : s.IsPriced inst ↔
    inst.covers s.ids = true ∧ inst.weightOf s.ids.toList = .ok s.cost := by
  constructor
  · intro h
    refine ⟨h.covers, ?_⟩
    rw [Instance.weightOf, if_pos (Instance.knows_iff.mpr h.ids_lt), h.cost_eq]
  · intro h
    obtain ⟨hcovers, hcost⟩ := h
    rw [Instance.weightOf] at hcost
    split at hcost
    · next hknown =>
        exact ⟨hcovers, (Except.ok.inj hcost).symm, Instance.knows_iff.mp hknown⟩
    · cases hcost

/-- A best swap that keeps the ids is kept by the next one; any other makes the selection better. -/
theorem bestSwap_step (hs : s.IsPriced inst) :
    ∃ s', bestSwap inst s = .ok s' ∧ s'.IsPriced inst ∧
      (bestSwap inst s' = .ok s' ∨ s'.Betters s) := by
  have hfound := bestSwap_eq hs.cost_eq hs.ids_lt hs.covers
  unfold exhaustiveSwap at hfound
  cases hp : (coveringSwaps inst s.ids).argmin (swapWeight inst s.ids) with
  | none =>
      rw [hp] at hfound
      exact ⟨s, hfound, hs, Or.inl hfound⟩
  | some p =>
      rw [hp] at hfound
      obtain ⟨_, hinto, hcovers⟩ := mem_coveringSwaps.mp (List.argmin_mem hp)
      have hlt : ∀ id ∈ swap s.ids p.1 p.2, id < inst.subsetCount := swap_lt hs.ids_lt hinto
      have hof := Selection.of_eq_ok hlt
      have hs' : Selection.IsPriced inst
          ⟨swapWeight inst s.ids p, (swap s.ids p.1 p.2).card, swap s.ids p.1 p.2⟩ :=
        ⟨hcovers, rfl, hlt⟩
      refine ⟨_, hfound.trans hof, hs', ?_⟩
      rcases swap_of_argmin hs.ids_lt hs.covers hp with hsame | hlower | ⟨heq, hleast⟩
      · -- the next search starts from the same ids, so it finds the same swap
        refine Or.inl ((bestSwap_eq hs'.cost_eq hs'.ids_lt hs'.covers).trans ?_)
        rw [hsame] at hof
        simp only [exhaustiveSwap, hsame, hp]
        exact hof
      · exact Or.inr (Or.inl (hs.cost_eq ▸ hlower))
      · exact Or.inr (Or.inr ⟨heq.trans hs.cost_eq.symm, hleast⟩)

/-! ## Where the best swap changes nothing -/

theorem Selection.le_of_steady (hs : s.IsPriced inst) (hsteady : bestSwap inst s = .ok s)
    {p : Nat × Nat} (hp : p ∈ coveringSwaps inst s.ids) : s.cost ≤ swapWeight inst s.ids p := by
  rw [bestSwap_eq hs.cost_eq hs.ids_lt hs.covers] at hsteady
  rcases exhaustiveSwap_spec hs.ids_lt hs.covers with ⟨hempty, _⟩ | ⟨q, _, hfound, hmin, _⟩
  · have hout := (mem_coveringSwaps.mp hp).1
    rw [hempty] at hout
    exact absurd hout IdSet.not_mem_empty
  · have hq : swapWeight inst s.ids q = s.cost :=
      congrArg Selection.cost (Except.ok.inj (hfound.symm.trans hsteady))
    rw [← hq]
    exact hmin p hp

/-- A swap for another id that is there already takes an id out and puts none in. -/
theorem swap_eq_erase {ids : IdSet} {out into : Nat} (hinto : into ∈ ids) (hne : into ≠ out) :
    swap ids out into = ids.erase out :=
  IdSet.insert_of_mem (IdSet.mem_erase.mpr ⟨hinto, hne⟩)

theorem IdSet.exists_ne_of_card {ids : IdSet} (h : 2 ≤ ids.card) (a : Nat) :
    ∃ b ∈ ids, b ≠ a := by
  obtain ⟨l, hl⟩ := ids
  match l, hl, h with
  | b :: c :: l, hl, _ =>
      have hbc : b < c := List.rel_of_pairwise_cons hl List.mem_cons_self
      by_cases hb : b = a
      · exact ⟨c, List.mem_cons_of_mem _ List.mem_cons_self, by omega⟩
      · exact ⟨b, List.mem_cons_self, hb⟩

theorem Selection.not_covers_erase_of_steady (hs : s.IsPriced inst)
    (hsteady : bestSwap inst s = .ok s) (hcard : 2 ≤ s.ids.card) {id : Nat} (hid : id ∈ s.ids)
    (hcost : 0 < inst.costAt id) : inst.covers (s.ids.erase id) = false := by
  obtain ⟨other, hother, hne⟩ := IdSet.exists_ne_of_card hcard id
  have hswap : swap s.ids id other = s.ids.erase id := swap_eq_erase hother hne
  by_contra hcovers
  have hle : s.cost ≤ inst.weight (s.ids.erase id).toList := by
    rw [← hswap]
    refine le_of_steady hs hsteady (p := (id, other)) ?_
    refine mem_coveringSwaps.mpr ⟨hid, hs.ids_lt other hother, ?_⟩
    rw [hswap]
    simpa using hcovers
  have herase : inst.weight (s.ids.erase id).toList + inst.costAt id = s.cost :=
    (Instance.weight_erase hid).trans hs.cost_eq.symm
  omega

/-! ## Many best swaps -/

/-- The selection after the best swap is carried out `n` times. -/
def bestSwaps (inst : Instance) (n : Nat) (first : Selection) : Except Fault Selection :=
  (· >>= bestSwap inst)^[n] (.ok first)

theorem bestSwaps_succ {s' : Selection} (h : bestSwap inst s = .ok s') (n : Nat) :
    bestSwaps inst (n + 1) s = bestSwaps inst n s' := by
  rw [bestSwaps, Function.iterate_succ_apply, bestSwaps, ← h]
  rfl

theorem bestSwaps_add {n : Nat} (h : bestSwaps inst n current = .ok s) (k : Nat) :
    bestSwaps inst (k + n) current = bestSwaps inst k s := by
  rw [bestSwaps, Function.iterate_add_apply]
  exact congrArg _ h

theorem bestSwaps_of_steady (h : bestSwap inst s = .ok s) (n : Nat) :
    bestSwaps inst n s = .ok s :=
  Function.iterate_fixed (f := (· >>= bestSwap inst)) h n

/-- By induction on the cost and the least id together: some best swap is the last to change
anything. -/
theorem bestSwaps_steady (hs : s.IsPriced inst) :
    ∃ n s', bestSwaps inst n s = .ok s' ∧ s'.IsPriced inst ∧ bestSwap inst s' = .ok s' := by
  induction s using Selection.betters_wf.induction with
  | _ s ih =>
      obtain ⟨s', hstep, hs', hsteady | hbetter⟩ := bestSwap_step hs
      · exact ⟨1, s', bestSwaps_succ hstep 0, hs', hsteady⟩
      · obtain ⟨n, last, hrun, hlast⟩ := ih s' hbetter hs'
        exact ⟨n + 1, last, (bestSwaps_succ hstep n).trans hrun, hlast⟩

/-- A run that comes back to a selection has become constant there. -/
theorem bestSwaps_eq_of_return {n : Nat} {first last : Selection}
    (hlast : ∀ m, n ≤ m → bestSwaps inst m first = .ok last) {i j : Nat} (hij : i < j)
    (hreturn : bestSwaps inst i first = bestSwaps inst j first) :
    bestSwaps inst i first = .ok last := by
  have hperiod : Function.IsPeriodicPt (· >>= bestSwap inst) (j - i)
      (bestSwaps inst i first) := by
    calc (· >>= bestSwap inst)^[j - i] (bestSwaps inst i first)
        = bestSwaps inst (j - i + i) first := (Function.iterate_add_apply _ _ _ _).symm
      _ = bestSwaps inst i first := by rw [Nat.sub_add_cancel (Nat.le_of_lt hij), hreturn]
  have hlate : n ≤ n * (j - i) + i := by
    have := Nat.le_mul_of_pos_right n (Nat.sub_pos_of_lt hij)
    omega
  calc bestSwaps inst i first
      = (· >>= bestSwap inst)^[n * (j - i)] (bestSwaps inst i first) :=
        (hperiod.const_mul n).eq.symm
    _ = bestSwaps inst (n * (j - i) + i) first := (Function.iterate_add_apply _ _ _ _).symm
    _ = .ok last := hlast _ hlate

/-- **Local optima.** From a cover of known ids with its own cost, best swaps become constant after
finitely many steps, and come back to no selection before. The last selection is a cover with its
own cost; no swap that covers makes it cheaper, and if it has two ids or more, each id that costs
anything is the only one of them to hold some element. -/
theorem bestSwaps_settle (inst : Instance) (first : Selection)
    (hcovers : inst.covers first.ids = true)
    (hcost : inst.weightOf first.ids.toList = .ok first.cost) :
    ∃ n last, (∀ m, n ≤ m → bestSwaps inst m first = .ok last) ∧
      (∀ i j, i < j → bestSwaps inst i first = bestSwaps inst j first →
        bestSwaps inst i first = .ok last) ∧
      bestSwap inst last = .ok last ∧ inst.covers last.ids = true ∧
      inst.weightOf last.ids.toList = .ok last.cost ∧
      (∀ out ∈ last.ids, ∀ into < inst.subsetCount, inst.covers (swap last.ids out into) = true →
        last.cost ≤ inst.weight (swap last.ids out into).toList) ∧
      (2 ≤ last.ids.card → ∀ id ∈ last.ids, 0 < inst.costAt id →
        inst.covers (last.ids.erase id) = false) := by
  obtain ⟨n, last, hrun, hpriced, hsteady⟩ :=
    bestSwaps_steady (Selection.isPriced_iff.mpr ⟨hcovers, hcost⟩)
  have hlast : ∀ m, n ≤ m → bestSwaps inst m first = .ok last := by
    intro m hm
    obtain ⟨k, rfl⟩ := Nat.exists_eq_add_of_le' hm
    rw [bestSwaps_add hrun, bestSwaps_of_steady hsteady]
  obtain ⟨hcovers', hcost'⟩ := Selection.isPriced_iff.mp hpriced
  refine ⟨n, last, hlast, ?_, hsteady, hcovers', hcost', ?_, ?_⟩
  · intro i j hij hreturn
    exact bestSwaps_eq_of_return hlast hij hreturn
  · intro out hout into hinto hswap
    exact Selection.le_of_steady hpriced hsteady (p := (out, into))
      (mem_coveringSwaps.mpr ⟨hout, hinto, hswap⟩)
  · intro hcard id hid hpos
    exact Selection.not_covers_erase_of_steady hpriced hsteady hcard hid hpos

/-- First the dearer of two ids is dropped, then the other one gives way to a smaller id of the same
cost. -/
theorem bestSwaps_settle_of_tie :
    ∃ inst, Instance.build 2 4 [7, 3, 3, 1] [[0, 1, 2], [0, 1, 2, 3]] = .ok inst ∧
      inst.covers (.ofList [0, 2]) = true ∧ inst.weightOf [0, 2] = .ok 10 ∧
      ∃ n, ∀ m, n ≤ m → bestSwaps inst m ⟨10, 2, .ofList [0, 2]⟩ = .ok ⟨3, 1, .ofList [1]⟩ := by
  obtain ⟨inst, hbuild, hcovers, hcost, hdrop, htie, hstay⟩ :
      ∃ inst, Instance.build 2 4 [7, 3, 3, 1] [[0, 1, 2], [0, 1, 2, 3]] = .ok inst ∧
        inst.covers (.ofList [0, 2]) = true ∧ inst.weightOf [0, 2] = .ok 10 ∧
        bestSwap inst ⟨10, 2, .ofList [0, 2]⟩ = .ok ⟨3, 1, .ofList [2]⟩ ∧
        bestSwap inst ⟨3, 1, .ofList [2]⟩ = .ok ⟨3, 1, .ofList [1]⟩ ∧
        bestSwap inst ⟨3, 1, .ofList [1]⟩ = .ok ⟨3, 1, .ofList [1]⟩ :=
    ⟨_, rfl, by decide +kernel, by rfl, by with_unfolding_all rfl, by with_unfolding_all rfl,
      by with_unfolding_all rfl⟩
  obtain ⟨n, last, hlast, _⟩ := bestSwaps_settle inst ⟨10, 2, .ofList [0, 2]⟩ hcovers hcost
  have hend : bestSwaps inst (n + 2) ⟨10, 2, .ofList [0, 2]⟩ = .ok ⟨3, 1, .ofList [1]⟩ := by
    rw [bestSwaps_succ hdrop, bestSwaps_succ htie, bestSwaps_of_steady hstay]
  rw [hlast (n + 2) (by omega)] at hend
  obtain rfl := Except.ok.inj hend
  exact ⟨inst, hbuild, hcovers, hcost, n, hlast⟩

end SetCover
