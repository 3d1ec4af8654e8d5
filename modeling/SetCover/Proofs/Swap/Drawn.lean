import SetCover.Proofs.Swap.Neighbours

/-!
# The swaps that are drawn

A random swap draws one swap after another and carries out the first that covers. The words to come
decide which swaps these are, so there is a list of them before any of them is tried, and the
outcome can be read off the list.

* `DrawnSwap`, `swapsToCome`: the swaps that the words to come make.
* `IsFirstSwap`, `ends_randomSwap_first`: the outcome is the first of them that covers.
* `triedSwaps`, `drawnSwaps`: those of them that are tried.
-/

namespace SetCover

open Search

variable {inst : Instance} {current s : Selection} {E : Fault → Session → Prop} {σ : Session}

/-- A swap that is drawn, and where the words after it come from. -/
structure DrawnSwap where
  out : Nat
  into : Nat
  after : Source

/-- Whether the ids after the swap cover. -/
def DrawnSwap.covers (inst : Instance) (ids : IdSet) (t : DrawnSwap) : Bool :=
  inst.covers (swap ids t.out t.into)

/-- The swaps that the next words make, one after another, whether they cover or not. -/
def swapsToCome (inst : Instance) (ids : IdSet) : Nat → Source → List DrawnSwap
  | 0, _ => []
  | left + 1, source =>
      if hids : 0 < ids.toList.length then
        if hpos : 0 < inst.subsetCount then
          let first := source.below ids.toList.length hids
          let second := first.2.below inst.subsetCount hpos
          ⟨ids.toList.get first.1, second.1.val, second.2⟩ :: swapsToCome inst ids left second.2
        else []
      else []

variable {ids : IdSet} {drawn : List DrawnSwap} {t : DrawnSwap} {source : Source}

theorem length_swapsToCome (hids : 0 < ids.toList.length) (hpos : 0 < inst.subsetCount)
    (left : Nat) (source : Source) : (swapsToCome inst ids left source).length = left := by
  induction left generalizing source with
  | zero => rfl
  | succ left ih =>
      rw [swapsToCome, dif_pos hids, dif_pos hpos]
      exact congrArg (· + 1) (ih _)

theorem mem_swapsToCome {left : Nat} (h : t ∈ swapsToCome inst ids left source) :
    t.out ∈ ids ∧ t.into < inst.subsetCount := by
  induction left generalizing source with
  | zero => exact absurd h List.not_mem_nil
  | succ left ih =>
      rw [swapsToCome] at h
      split at h
      · split at h
        · rcases List.mem_cons.mp h with rfl | h
          · exact ⟨List.get_mem .., Fin.isLt _⟩
          · exact ih h
        · exact absurd h List.not_mem_nil
      · exact absurd h List.not_mem_nil

theorem swapsToCome_of_no_subsets (hnone : inst.subsetCount = 0) (left : Nat) (source : Source) :
    swapsToCome inst ids left source = [] :=
  List.eq_nil_iff_forall_not_mem.mpr fun _ ht =>
    Nat.not_lt_zero _ (hnone ▸ (mem_swapsToCome ht).2)

/-! ## The first swap that covers -/

/-- What the outcome is, in terms of the first swap that covers: the selection after that swap, and
no word after those for it is taken. Without one the selection stays as it is. -/
def IsFirstSwap (inst : Instance) (current : Selection) (drawn : List DrawnSwap) (s : Selection)
    (source : Source) : Prop :=
  match drawn.find? (DrawnSwap.covers inst current.ids) with
  | some t => Selection.of inst (swap current.ids t.out t.into) = .ok s ∧ source = t.after
  | none => s = current

theorem isFirstSwap_cons_of_covers (hcovers : t.covers inst current.ids = true)
    (hof : Selection.of inst (swap current.ids t.out t.into) = .ok s) :
    IsFirstSwap inst current (t :: drawn) s t.after := by
  unfold IsFirstSwap
  rw [List.find?_cons_of_pos hcovers]
  exact ⟨hof, rfl⟩

theorem IsFirstSwap.cons_of_fails (hfails : ¬ t.covers inst current.ids = true)
    (h : IsFirstSwap inst current drawn s source) :
    IsFirstSwap inst current (t :: drawn) s source := by
  unfold IsFirstSwap
  rw [List.find?_cons_of_neg hfails]
  exact h

theorem ends_drawMember_bind {α : Type} {ids : IdSet} {f : Option Nat → Search α}
    {Q : α → Session → Prop} (hnone : ids.toList.length = 0 → Ends (f none) E Q σ)
    (hsome : ∀ hpos : 0 < ids.toList.length,
      Ends (f (some (ids.toList.get (σ.source.below ids.toList.length hpos).1))) E Q
        { σ with source := (σ.source.below ids.toList.length hpos).2 }) :
    Ends (drawMember ids >>= f) E Q σ := by
  unfold drawMember
  split
  · next hempty =>
      rw [pure_bind]
      exact hnone (List.length_eq_zero_iff.mpr (List.isEmpty_iff.mp hempty))
  · next hempty =>
      have hpos : 0 < ids.toList.length := by
        rw [List.length_pos_iff]
        intro hnil
        exact hempty (List.isEmpty_iff.mpr hnil)
      rw [bind_assoc]
      refine ends_below_run_bind hpos ?_
      rw [pure_bind]
      exact hsome hpos

theorem ends_randomSwapFrom_first (attempts : Nat)
    (hids : ∀ id ∈ current.ids, id < inst.subsetCount) (left : Nat) :
    Ends (randomSwapFrom inst attempts current left) E (fun s σ' =>
      IsFirstSwap inst current (swapsToCome inst current.ids left σ.source) s σ'.source) σ := by
  induction left generalizing σ with
  | zero => exact ends_note_bind (ends_pure rfl)
  | succ left ih =>
      rw [randomSwapFrom, swapsToCome]
      refine ends_drawMember_bind (fun hnil => ?_) fun hlength => ?_
      · rw [dif_neg (Nat.not_lt_of_le (Nat.le_of_eq hnil))]
        exact ends_pure rfl
      · have hpos : 0 < inst.subsetCount :=
          Nat.zero_lt_of_lt (hids _ (List.get_mem _ ⟨0, hlength⟩))
        rw [dif_pos hlength, dif_pos hpos]
        dsimp only
        generalize σ.source.below current.ids.toList.length hlength = first
        refine ends_below_run_bind hpos ?_
        dsimp only
        generalize first.2.below inst.subsetCount hpos = second
        refine ends_ite (fun hcovers => ?_) fun hfails => ?_
        · obtain ⟨s, hof, _⟩ := isSwapOf_of_mem hids (p := (_, second.1.val))
            (mem_coveringSwaps.mpr ⟨List.get_mem _ first.1, second.1.isLt, hcovers⟩)
          refine ends_ofExcept_ok hof ?_
          exact isFirstSwap_cons_of_covers (t := ⟨_, _, second.2⟩) hcovers hof
        · exact (ih (σ := ⟨second.2, σ.journal⟩)).weaken fun s σ' hfirst =>
            hfirst.cons_of_fails hfails

/-- The outcome is the first swap that covers. -/
theorem ends_randomSwap_first (attempts : Nat)
    (hids : ∀ id ∈ current.ids, id < inst.subsetCount) :
    Ends (randomSwap inst attempts current) E (fun s σ' =>
      IsFirstSwap inst current (swapsToCome inst current.ids attempts σ.source) s σ'.source) σ := by
  unfold randomSwap
  refine ends_ite (fun hnone => ends_pure ?_) fun _ =>
    ends_randomSwapFrom_first attempts hids attempts
  rw [swapsToCome_of_no_subsets hnone]
  rfl

/-! ## The swaps that are tried -/

/-- What is taken out and what is put in. -/
def DrawnSwap.pair (t : DrawnSwap) : Nat × Nat := (t.out, t.into)

/-- Those of some swaps that are tried: all that do not cover, before the first that does, and that
one. -/
def triedSwaps (inst : Instance) (ids : IdSet) (drawn : List DrawnSwap) : List (Nat × Nat) :=
  (drawn.takeWhile (fun t => !t.covers inst ids) ++
    (drawn.find? (DrawnSwap.covers inst ids)).toList).map DrawnSwap.pair

/-- The swaps that are drawn until one covers, `left` of them at most. -/
def drawnSwaps (inst : Instance) (ids : IdSet) (left : Nat) (source : Source) :
    List (Nat × Nat) :=
  triedSwaps inst ids (swapsToCome inst ids left source)

end SetCover
