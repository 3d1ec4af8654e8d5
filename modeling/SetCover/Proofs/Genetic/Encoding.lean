import SetCover.Proofs.Bits.Refinement
import SetCover.Proofs.Genetic.Member

/-!
# Sets of ids and vectors of genes

A set of ids and a vector of genes say the same, as far as the width of the vector goes: ids beyond
it are lost, and nothing else is, in either direction. So a selection is read back from its genes
with the same ids. Its cost is the stored one as long as that was right, and its size is counted
again, whatever size was stored.

* `Bits.Clean.ofIds?_toIds`: a vector is the vector of its ids.
* `Member.encoding_round_trips`: sets of ids, vectors of genes and selections, with their costs.
-/

namespace SetCover

/-! ## Vectors -/

namespace Bits

variable {size : Nat} {b : Bits size}

/-- A vector without stray bits is the vector of the ids that are read from it. -/
theorem Clean.ofIds?_toIds (h : b.Clean) : ofIds? size b.toIds b.width = .ok b := by
  obtain ⟨b', hb'⟩ := exists_ofIds? b.toIds b.width_le
  obtain ⟨hwidth, hclean, hget⟩ := get_of_ofIds? hb'
  have hmem : ∀ i, i ∈ b.toIds ↔ b.get i = true := fun i => mem_ones h
  have hsame : b' = b := by
    refine ext_stored hwidth fun i => ?_
    rw [hclean.stored_eq, h.stored_eq, hget, Bool.eq_iff_iff, Bool.and_eq_true,
      IdSet.contains_iff, hmem, decide_eq_true_eq]
    exact and_iff_left_of_imp fun hi => of_decide_eq_true (Bool.and_eq_true_iff.mp hi).1
  rw [hb', hsame]

end Bits

/-! ## Members -/

namespace Member

variable {inst : Instance}

/-- **Encoding.** If there is room for a gene for every subset, the ids of the genes of a set are
those of its members that name subsets, and the member with these genes is read back as the
selection of these ids. Genes that come out of any operations are the genes of their ids, and their
member has the cost of these ids. All these genes stand for known subsets. A selection with the
right cost is read back from its member with the same cost and ids and with the right size, and so
it is the same selection exactly if its size was right. -/
theorem encoding_round_trips (inst : Instance) (hroom : inst.subsetCount ≤ geneCapacity) :
    (∀ ids : IdSet, ∃ genes s,
      Bits.ofIds? geneWords ids inst.subsetCount = .ok genes ∧
        genes.toIds = ids.filter (· < inst.subsetCount) ∧
        Selection.of inst (ids.filter (· < inst.subsetCount)) = .ok s ∧
        Member.of? inst genes = .ok (Member.of inst genes) ∧
        (Member.of inst genes).toSelection inst = .ok s) ∧
    (∀ h : Bits.History geneWords, h.width = inst.subsetCount → ∃ genes, h.vector = .ok genes ∧
      genes.width = inst.subsetCount ∧
        Bits.ofIds? geneWords genes.toIds inst.subsetCount = .ok genes ∧
        Member.of? inst genes = .ok (Member.of inst genes) ∧
        inst.weightOf genes.toIds.toList = .ok (Member.of inst genes).cost) ∧
    ∀ s : Selection, s.cost = inst.weight s.ids.toList →
      (∀ id ∈ s.ids, id < inst.subsetCount) → ∃ m, Member.ofSelection inst s = .ok m ∧
        m.toSelection inst = .ok ⟨s.cost, s.ids.card, s.ids⟩ ∧
        (m.toSelection inst = .ok s ↔ s.size = s.ids.card) := by
  refine ⟨fun ids => ?_, fun h hwidth => ?_, fun s hcost hids => ?_⟩
  · obtain ⟨genes, hgenes⟩ := Bits.exists_ofIds? ids hroom
    have hback := Bits.toIds_of_ofIds? hgenes
    have hof : Selection.of inst (ids.filter (· < inst.subsetCount)) = _ :=
      Selection.of_eq_ok fun id hid => of_decide_eq_true (IdSet.mem_filter.mp hid).2
    obtain ⟨hwidth, hclean, _⟩ := Bits.get_of_ofIds? hgenes
    refine ⟨genes, _, hgenes, hback, hof, of?_eq_ok hwidth hclean, ?_⟩
    rw [toSelection, Member.of, hback]
    exact hof
  · obtain ⟨genes, hgenes, hset⟩ := Bits.exists_standsFor h
    have hsame : genes.width = inst.subsetCount := hset.width_eq.trans hwidth
    refine ⟨genes, hgenes, hsame, ?_, of?_eq_ok hsame hset.clean, weightOf_ones hsame hset.clean⟩
    rw [← hsame]
    exact hset.clean.ofIds?_toIds
  · obtain ⟨m, hm⟩ := exists_ofSelection (s := s) hroom
    have hback := toSelection_of_ofSelection hids hm
    rw [← hcost] at hback
    refine ⟨m, hm, hback, ?_⟩
    rw [hback]
    constructor
    · intro hsame
      exact (congrArg Selection.size (Except.ok.inj hsame)).symm
    · intro hsize
      rw [← hsize]

/-- The width fills a word: of four ids the last two are beyond it, and the complement of its last
bit has all the others. -/
theorem encoding_round_trips_of_full_word :
    ∃ inst, Instance.build 2 64 (List.replicate 64 3) [[0, 63], [63]] = .ok inst ∧
      inst.subsetCount ≤ geneCapacity ∧
      (∃ genes, Bits.ofIds? geneWords (.ofList [0, 63, 64, 200]) inst.subsetCount = .ok genes ∧
        genes.toIds = .ofList [0, 63] ∧
        (Member.of inst genes).toSelection inst = .ok ⟨6, 2, .ofList [0, 63]⟩) ∧
      (∃ h : Bits.History geneWords, h = .complement (.set (.blank 64 (by decide)) 63) ∧
        h.width = inst.subsetCount ∧ ∃ genes, h.vector = .ok genes ∧
          Bits.ofIds? geneWords genes.toIds inst.subsetCount = .ok genes ∧
          inst.weightOf genes.toIds.toList = .ok (Member.of inst genes).cost) ∧
      6 = inst.weight [0, 63] ∧ (∀ id ∈ IdSet.ofList [0, 63], id < inst.subsetCount) ∧
      ∃ m, Member.ofSelection inst ⟨6, 2, .ofList [0, 63]⟩ = .ok m ∧
        m.toSelection inst = .ok ⟨6, 2, .ofList [0, 63]⟩ := by
  obtain ⟨inst, hbuild, hcount, hcost, hids, hof⟩ :
      ∃ inst, Instance.build 2 64 (List.replicate 64 3) [[0, 63], [63]] = .ok inst ∧
        inst.subsetCount = 64 ∧ 6 = inst.weight [0, 63] ∧
        (∀ id ∈ IdSet.ofList [0, 63], id < inst.subsetCount) ∧
        Selection.of inst (.ofList [0, 63]) = .ok ⟨6, 2, .ofList [0, 63]⟩ :=
    ⟨_, rfl, rfl, by decide, by decide, by rfl⟩
  have hroom : inst.subsetCount ≤ geneCapacity := by
    rw [hcount]
    decide
  have hkept : (IdSet.ofList [0, 63, 64, 200]).filter (· < inst.subsetCount) = .ofList [0, 63] := by
    rw [hcount]
    decide
  obtain ⟨hsets, hgenes, hselections⟩ := encoding_round_trips inst hroom
  refine ⟨inst, hbuild, hroom, ?_, ?_, hcost, hids, ?_⟩
  · obtain ⟨genes, s, hof', hback, hs, _, hread⟩ := hsets (.ofList [0, 63, 64, 200])
    rw [hkept] at hback hs
    obtain rfl := Except.ok.inj (hs.symm.trans hof)
    exact ⟨genes, hof', hback, hread⟩
  · have hwidth : (Bits.History.complement (.set (.blank 64 (by decide)) 63) :
        Bits.History geneWords).width = inst.subsetCount := hcount.symm
    obtain ⟨genes, hvector, _, hagain, _, hprice⟩ := hgenes _ hwidth
    exact ⟨_, rfl, hwidth, genes, hvector, hagain, hprice⟩
  · obtain ⟨m, hm, _, hsame⟩ := hselections ⟨6, 2, .ofList [0, 63]⟩ hcost hids
    exact ⟨m, hm, hsame.mpr (by decide)⟩

/-- A selection of one subset that takes itself for one of five is read back as what it is. -/
theorem toSelection_ne_of_stale_size :
    ∃ inst, Instance.build 1 1 [3] [[0]] = .ok inst ∧ inst.subsetCount ≤ geneCapacity ∧
      3 = inst.weight [0] ∧ (∀ id ∈ IdSet.ofList [0], id < inst.subsetCount) ∧
      ∃ m, Member.ofSelection inst ⟨3, 5, .ofList [0]⟩ = .ok m ∧
        m.toSelection inst = .ok ⟨3, 1, .ofList [0]⟩ ∧
        m.toSelection inst ≠ .ok ⟨3, 5, .ofList [0]⟩ := by
  obtain ⟨inst, hbuild, hroom, hcost, hids⟩ :
      ∃ inst, Instance.build 1 1 [3] [[0]] = .ok inst ∧ inst.subsetCount ≤ geneCapacity ∧
        3 = inst.weight [0] ∧ ∀ id ∈ IdSet.ofList [0], id < inst.subsetCount :=
    ⟨_, rfl, by decide, by decide, by decide⟩
  obtain ⟨m, hm⟩ := exists_ofSelection (s := ⟨3, 5, .ofList [0]⟩) hroom
  have hback : m.toSelection inst = .ok ⟨inst.weight [0], 1, .ofList [0]⟩ :=
    toSelection_of_ofSelection hids hm
  rw [← hcost] at hback
  refine ⟨inst, hbuild, hroom, hcost, hids, m, hm, hback, ?_⟩
  rw [hback]
  intro hsame
  exact absurd (Except.ok.inj hsame) (by decide)

end Member

end SetCover
