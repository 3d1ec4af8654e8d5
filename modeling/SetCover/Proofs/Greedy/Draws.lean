import SetCover.Proofs.Greedy.Construction
import SetCover.Proofs.Search.Drawing

/-!
# Words of greedy constructions

The words that are drawn do not matter to a construction from shortlists of one, but it takes them
from the source. Where none of them is rejected it takes no more words than there are offers.

* `Greedy.plain_of_pairwise`: the construction where the costs are in order.
* `ends_cheapestFirst_later`: how many words the cheapest-first construction takes.
-/

namespace SetCover

open Search

namespace Greedy

variable {inst : Instance} {pool : List Offer} {left : List Nat} {kept : IdSet} {σ : Session}

/-- Costs that are in order already are offered in that order. -/
theorem plain_of_pairwise {ids : IdSet}
    (hordered : (((plainPrices inst).zipIdx.map fun p => (⟨p.1, p.2⟩ : Offer)).filter
      (·.price != takenMark)).Pairwise fun a b => a.le b = true)
    (hscan : scan inst (((plainPrices inst).zipIdx.map fun p => (⟨p.1, p.2⟩ : Offer)).filter
      (·.price != takenMark)) (List.range inst.elementCount) .empty = some ids) :
    plain inst = some ids := by
  unfold plain offers
  rw [List.mergeSort_of_pairwise hordered]
  exact hscan

/-- Where no word is rejected, a construction takes no more words than there are offers. -/
theorem ends_grow_one_later (haccepts : ∀ i, accepts 1 (σ.source.stream.word i) = true) :
    Ends (grow inst 1 pool left kept) anyFault
      (fun _ σ' => ∃ n, n ≤ pool.length ∧ σ.Later n σ') σ := by
  induction pool generalizing left kept σ with
  | nil =>
      cases left with
      | nil =>
          rw [grow]
          exact ends_pure ⟨0, Nat.le_refl _, rfl, rfl⟩
      | cons first more =>
          apply ends_grow_cons Nat.one_pos
          · intro _
            trivial
          · intro o ho
            exact absurd (mem_of_mem_shortlist ho) List.not_mem_nil
  | cons o pool ih =>
      cases left with
      | nil =>
          rw [grow]
          exact ends_pure ⟨0, Nat.zero_le _, rfl, rfl⟩
      | cons first more =>
          apply ends_grow_draw Nat.one_pos
          · intro h
            cases h
          · intro hpos a ha journal
            have hone : shortlist 1 (o :: pool) = [o] := shortlist_one
            rw [hone] at ha
            obtain rfl := List.mem_singleton.mp ha
            rw [List.erase_cons_head]
            have hsource : ∀ (bound : Nat) (hpos : 0 < bound), bound = 1 →
                (σ.source.below bound hpos).2 =
                  .ofPlace σ.source.stream (σ.source.drawn + 1) := by
              intro bound hpos hbound
              subst hbound
              exact (Source.below_of_accepts hpos (haccepts _)).2
            rw [hsource _ hpos (congrArg List.length hone)]
            apply Ends.weaken (ih ?_)
            · rintro _ σ' ⟨n, hn, hstream, hdrawn⟩
              refine ⟨n + 1, Nat.succ_le_succ hn, hstream, ?_⟩
              rw [hdrawn]
              show σ.source.drawn + 1 + n = σ.source.drawn + (n + 1)
              omega
            · exact haccepts

/-- Where no word is rejected, the cheapest-first construction takes at most one word a subset. -/
theorem ends_construct_later (haccepts : ∀ i, accepts 1 (σ.source.stream.word i) = true) :
    Ends (construct inst 1 0) anyFault
      (fun _ σ' => ∃ n, n ≤ inst.subsetCount ∧ σ.Later n σ') σ := by
  unfold construct
  split
  · exact ends_throw trivial
  · apply ends_bind
      (ends_ofExcept (Q := fun _ σ' => σ' = σ) (fun _ _ => rfl) fun _ _ => trivial)
    intro _ σ' hsame
    subst hsame
    apply ends_bind (ends_plainPrices (Q := fun prices σ₁ => prices = plainPrices inst ∧ σ₁ = σ')
      ⟨rfl, rfl⟩)
    rintro prices σ₁ ⟨hprices, hsame⟩
    subst hprices hsame
    apply (ends_grow_one_later haccepts).weaken
    rintro _ _ ⟨n, hn, hlater⟩
    exact ⟨n, Nat.le_trans hn (length_plainOffers_le inst), hlater⟩

end Greedy

theorem ends_cheapestFirst_later {inst : Instance} {σ : Session}
    (haccepts : ∀ i, accepts 1 (σ.source.stream.word i) = true) :
    Ends (cheapestFirst inst) anyFault
      (fun _ σ' => ∃ n, n ≤ inst.subsetCount ∧ σ.Later n σ') σ := by
  unfold cheapestFirst multistart
  rw [multistartFrom]
  apply ends_bind (R := fun best σ' => best.isSome = true ∧
    ∃ n, n ≤ inst.subsetCount ∧ σ.Later n σ')
  · apply ends_bind (R := fun _ σ' => ∃ n, n ≤ inst.subsetCount ∧ σ.Later n σ')
    · apply ends_bind (Greedy.ends_construct_later haccepts)
      intro ids σ' hlater
      apply ends_ofExcept
      · intro _ _
        exact hlater
      · intro _ _
        trivial
    · intro s σ' hlater
      apply ends_ite
      · intro hany
        cases hany
      · intro _
        exact ends_note_bind (ends_pure ⟨rfl, hlater⟩)
  · rintro best σ' ⟨hsome, hlater⟩
    cases best with
    | none => cases hsome
    | some best => exact ends_pure hlater

end SetCover
