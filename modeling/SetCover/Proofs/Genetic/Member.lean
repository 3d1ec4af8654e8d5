import SetCover.Bits.Counting
import SetCover.Genetic.Pool
import SetCover.Proofs.Bits.Fill
import SetCover.Proofs.Instance.Cover

/-!
# Sound members

A sound member has a gene for every subset, no stray bits and the cost of its genes. So its bits
and its cost say the same as a selection does, and random members, children and encodings of
selections are all sound.

* `Member.toSelection_of_ofSelection`: what is read back from the member of a selection.
* `Member.sound_of`, `Member.sound_ofSelection`: where sound members come from.
* `Member.of?_eq_ok`: the genes of a sound member stand for known subsets.
* `Member.Sound.toSelection`: a sound member that covers is a cover.
* `ends_randomPool`: a random pool has its size and is sound throughout.
-/

namespace SetCover

open Search

variable {inst : Instance} {E : Fault → Session → Prop} {σ : Session}

/-- A gene for every subset, no stray bits, and the cost of the genes. -/
structure Member.Sound (inst : Instance) (m : Member) : Prop where
  width_eq : m.genes.width = inst.subsetCount
  clean : m.genes.Clean
  cost_eq : m.cost = inst.weight m.genes.ones

namespace Member

theorem sound_of {genes : Genes} (hwidth : genes.width = inst.subsetCount) (hclean : genes.Clean) :
    (Member.of inst genes).Sound inst :=
  ⟨hwidth, hclean, rfl⟩

theorem weightOf_ones {genes : Genes} (hwidth : genes.width = inst.subsetCount)
    (hclean : genes.Clean) : inst.weightOf genes.ones = .ok (inst.weight genes.ones) := by
  refine if_pos (Instance.knows_iff.mpr fun id hid => ?_)
  rw [← hwidth]
  exact hclean id (Bits.mem_ones_iff.mp hid)

theorem of?_eq_ok {genes : Genes} (hwidth : genes.width = inst.subsetCount)
    (hclean : genes.Clean) : Member.of? inst genes = .ok (Member.of inst genes) := by
  rw [of?, weightOf_ones hwidth hclean]
  rfl

/-! ## Selections -/

theorem ofSelection_spec {s : Selection} {m : Member} (h : ofSelection inst s = .ok m) :
    Bits.ofIds? geneWords s.ids inst.subsetCount = .ok m.genes ∧ m.cost = s.cost := by
  unfold ofSelection at h
  cases hbits : Bits.ofIds? geneWords s.ids inst.subsetCount with
  | error fault =>
      rw [hbits] at h
      cases h
  | ok genes =>
      rw [hbits] at h
      cases h
      exact ⟨rfl, rfl⟩

theorem exists_ofSelection {s : Selection} (hwidth : inst.subsetCount ≤ geneCapacity) :
    ∃ m, ofSelection inst s = .ok m := by
  obtain ⟨genes, hgenes⟩ := Bits.exists_ofIds? s.ids hwidth
  rw [ofSelection, hgenes]
  exact ⟨_, rfl⟩

/-- The genes of a selection of known ids have its ids. -/
theorem toIds_ofSelection {s : Selection} {m : Member}
    (hids : ∀ id ∈ s.ids, id < inst.subsetCount) (h : ofSelection inst s = .ok m) :
    m.genes.toIds = s.ids := by
  rw [Bits.toIds_of_ofIds? (ofSelection_spec h).1]
  apply IdSet.ext_mem
  intro id
  rw [IdSet.mem_filter, decide_eq_true_eq]
  exact and_iff_left_of_imp (hids id)

/-- What is read back from the member of a selection has its ids, and their cost and number. -/
theorem toSelection_of_ofSelection {s : Selection} {m : Member}
    (hids : ∀ id ∈ s.ids, id < inst.subsetCount) (h : ofSelection inst s = .ok m) :
    m.toSelection inst = .ok ⟨inst.weight s.ids.toList, s.ids.card, s.ids⟩ := by
  rw [toSelection, toIds_ofSelection hids h]
  exact Selection.of_eq_ok hids

/-- So a selection with the right cost and size is read back as it was. -/
theorem toSelection_of_consistent {s : Selection} {m : Member} (hs : s.Consistent inst)
    (h : ofSelection inst s = .ok m) : m.toSelection inst = .ok s := by
  rw [toSelection_of_ofSelection hs.ids_lt h, ← hs.cost_eq, ← hs.size_eq]

theorem sound_ofSelection {s : Selection} {m : Member} (hs : s.Consistent inst)
    (h : ofSelection inst s = .ok m) : m.Sound inst := by
  obtain ⟨hbits, hcost⟩ := ofSelection_spec h
  obtain ⟨hwidth, hclean, _⟩ := Bits.get_of_ofIds? hbits
  refine ⟨hwidth, hclean, ?_⟩
  have hids : m.genes.ones = s.ids.toList := congrArg IdSet.toList (toIds_ofSelection hs.ids_lt h)
  rw [hcost, hs.cost_eq, hids]

/-- Genes cover as their ids do. -/
theorem Sound.isCover_iff {m : Member} (h : m.Sound inst) :
    m.isCover inst = true ↔ inst.covers m.genes.toIds = true := by
  have hmem : ∀ id, m.genes.get id = true ↔ id ∈ m.genes.toIds := fun id =>
    (Bits.mem_ones h.clean).symm
  rw [isCover, Instance.coveredBy_iff, Instance.covers_iff]
  simp only [hmem]

theorem isCover_ofSelection {s : Selection} {m : Member} (hs : s.IsCover inst)
    (h : ofSelection inst s = .ok m) : m.isCover inst = true := by
  rw [(sound_ofSelection hs.consistent h).isCover_iff, toIds_ofSelection hs.consistent.ids_lt h]
  exact hs.covers

theorem Sound.ids_lt {m : Member} (h : m.Sound inst) :
    ∀ id ∈ m.genes.toIds, id < inst.subsetCount := by
  intro id hid
  rw [← h.width_eq]
  exact h.clean id (Bits.mem_ones_iff.mp hid)

/-- A sound member that covers is a cover of the same cost. -/
theorem Sound.toSelection {m : Member} (h : m.Sound inst) (hcover : m.isCover inst = true) :
    ∃ s, m.toSelection inst = .ok s ∧ s.IsCover inst ∧ s.cost = m.cost :=
  ⟨_, Selection.of_eq_ok h.ids_lt, ⟨⟨rfl, rfl, h.ids_lt⟩, h.isCover_iff.mp hcover⟩,
    h.cost_eq.symm⟩

end Member

/-! ## Random members -/

theorem ends_randomGenes {width : Nat} (hwidth : width ≤ geneCapacity) :
    Ends (Bits.random geneWords width 0.5) E
      (fun genes _ => genes.width = width ∧ genes.Clean) σ := by
  refine (Bits.ends_random hwidth (by decide)).weaken ?_
  rintro genes _ ⟨hwidth, hclean, -⟩
  exact ⟨hwidth, hclean⟩

theorem ends_drawMembers (hwidth : inst.subsetCount ≤ geneCapacity) (count : Nat)
    {drawn : List Member} (hdrawn : ∀ m ∈ drawn, m.Sound inst) :
    Ends (Pool.drawMembers inst count drawn) E
      (fun members _ => members.length = drawn.length + count ∧ ∀ m ∈ members, m.Sound inst) σ := by
  induction count generalizing drawn σ with
  | zero => exact ends_pure ⟨by simp, fun m hm => hdrawn m (List.mem_reverse.mp hm)⟩
  | succ count ih =>
      rw [Pool.drawMembers]
      refine ends_bind (ends_randomGenes hwidth) fun genes σ hgenes => ?_
      refine ends_ofExcept_bind (Member.of?_eq_ok hgenes.1 hgenes.2) ?_
      have hnew : ∀ m ∈ Member.of inst genes :: drawn, m.Sound inst := by
        intro m hm
        rcases List.mem_cons.mp hm with rfl | hm
        · exact Member.sound_of hgenes.1 hgenes.2
        · exact hdrawn m hm
      refine (ih hnew).weaken fun members _ h => ⟨?_, h.2⟩
      rw [h.1, List.length_cons]
      omega

/-- A random pool has its size and is sound throughout. It is refused only for its size. -/
theorem ends_randomPool (hwidth : inst.subsetCount ≤ geneCapacity) {size : Nat}
    (hlong : 2 ^ 63 ≤ size * 144 → E (.breach .overLong) σ) :
    Ends (Pool.random inst size) E (fun pool _ => size * 144 < 2 ^ 63 ∧ pool.size = size ∧
      ∀ m ∈ pool.members, m.Sound inst) σ := by
  unfold Pool.random
  refine ends_ite (fun h => ends_throw (hlong h)) fun h => ?_
  refine ends_bind (ends_drawMembers hwidth size (by simp)) ?_
  rintro members σ ⟨hlength, hsound⟩
  refine ends_pure ⟨Nat.lt_of_not_le h, ?_, fun m hm => hsound m (by simpa using hm)⟩
  simpa [Pool.size] using hlength

end SetCover
