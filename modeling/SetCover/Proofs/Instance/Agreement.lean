import SetCover.Proofs.Genetic.Member

/-!
# Tests for a cover agree

Whether a choice of subsets is a cover is found out in several ways: from the rows of the elements
with the ids of a set or with a predicate, from the contents of the chosen subsets, and from the
genes of a member. All of them decide `Instance.Covers`, and only the known ids among those chosen
matter to it.

* `covers_iff_contents`: the test by the contents of the subsets.
* `Member.isCover_of_genes`: the test by genes.
* `coverTests_agree`: all tests, and what they say of an instance as a whole.
-/

namespace SetCover

namespace Instance

variable {inst : Instance}

/-- A cover is a choice whose contents are all elements. -/
theorem covers_iff_contents {ids : IdSet} : inst.covers ids = true ↔
    ∀ e < inst.elementCount, ∃ s ∈ ids, s < inst.subsetCount ∧ e ∈ inst.contentsOf s := by
  rw [covers_iff]
  constructor
  · intro hcovers e he
    obtain ⟨s, hs, hid⟩ := hcovers e he
    exact ⟨s, hid, mem_holdersOf_lt hs, mem_contentsOf.mpr hs⟩
  · intro hcontents e he
    obtain ⟨s, hid, _, hs⟩ := hcontents e he
    exact ⟨s, mem_contentsOf.mp hs, hid⟩

theorem exists_covers_iff :
    (∃ ids, inst.covers ids = true) ↔ inst.covers (.range inst.subsetCount) = true := by
  constructor
  · intro ⟨ids, h⟩
    rw [covers_range_iff, requireCoverable_iff_covers]
    apply (covers_iff.mp h).mono
    intro s _ _
    exact trivial
  · intro h
    exact ⟨_, h⟩

/-- An element is missed by all subsets together when it is in the contents of none. -/
theorem firstMissed_iff_contents {e : Nat} : inst.FirstMissed (fun _ => True) e ↔
    e < inst.elementCount ∧ (∀ s, e ∉ inst.contentsOf s) ∧
      ∀ e' < e, ∃ s, e' ∈ inst.contentsOf s := by
  simp only [FirstMissed, Holds, and_true, not_exists, mem_contentsOf]

end Instance

variable {inst : Instance}

/-- The genes of a set of ids cover as the set does, also where it has ids that are dropped. -/
theorem Member.isCover_of_genes {ids : IdSet} {m : Member}
    (h : Bits.ofIds? geneWords ids inst.subsetCount = .ok m.genes) :
    m.isCover inst = inst.covers ids := by
  obtain ⟨_, _, hget⟩ := Bits.get_of_ofIds? h
  apply Instance.coveredBy_eq_of_known
  intro s hs
  rw [hget, decide_eq_true hs, Bool.and_true]

namespace Instance

/-- **Tests for a cover agree.** For any set of ids, known or not, the test with a predicate that
accepts these ids, the test by contents and the test by genes answer as the test of the set does,
and they go on to do so when ids are added to a cover. Some set is a cover exactly when all known
ids together are one, and exactly then the instance passes as coverable. If it does not pass, the
first element that is in no subset is named. -/
theorem coverTests_agree (inst : Instance) :
    (∀ ids : IdSet,
      (∀ chosen : Nat → Bool, (∀ id, chosen id = true ↔ id ∈ ids) →
        inst.coveredBy chosen = inst.covers ids) ∧
      (inst.covers ids = true ↔
        ∀ e < inst.elementCount, ∃ s ∈ ids, s < inst.subsetCount ∧ e ∈ inst.contentsOf s) ∧
      (inst.subsetCount ≤ 1024 → ∃ genes, Bits.ofIds? geneWords ids inst.subsetCount = .ok genes ∧
        ∀ m : Member, m.genes = genes → m.isCover inst = inst.covers ids) ∧
      ∀ ids' : IdSet, (∀ id ∈ ids, id ∈ ids') → inst.covers ids = true →
        inst.covers ids' = true) ∧
    (inst.requireCoverable = .ok () ↔ ∃ ids, inst.covers ids = true) ∧
    ((∃ ids, inst.covers ids = true) ↔ inst.covers (.range inst.subsetCount) = true) ∧
    ∀ fault, inst.requireCoverable = .error fault ↔
      ∃ e, fault = .uncoverable e ∧ e < inst.elementCount ∧ (∀ s, e ∉ inst.contentsOf s) ∧
        ∀ e' < e, ∃ s, e' ∈ inst.contentsOf s := by
  refine ⟨?_, ?_, exists_covers_iff, ?_⟩
  · intro ids
    refine ⟨?_, covers_iff_contents, ?_, ?_⟩
    · intro chosen hchosen
      apply coveredBy_eq_of_known
      intro s _
      rw [Bool.eq_iff_iff, hchosen, IdSet.contains_iff]
    · intro hwidth
      have hroom : inst.subsetCount ≤ geneCapacity := hwidth
      obtain ⟨genes, hgenes⟩ := Bits.exists_ofIds? ids hroom
      refine ⟨genes, hgenes, ?_⟩
      intro m hm
      apply Member.isCover_of_genes
      rw [hgenes, hm]
    · intro ids' hsub
      exact covers_mono hsub
  · rw [exists_covers_iff, covers_range_iff]
  · intro fault
    simp only [requireCoverable_eq_error_iff, firstMissed_iff_contents]

end Instance

end SetCover
