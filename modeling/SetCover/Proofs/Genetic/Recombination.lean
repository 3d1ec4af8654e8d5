import Mathlib.Data.List.TFAE
import SetCover.Bits.Counting
import SetCover.Genetic.Crossover
import SetCover.Proofs.Bits.Fill
import SetCover.Proofs.Search.Steering

/-!
# The children of two parents

A child takes the gene of a subset from the leader if the word drawn for it is favourable, and from
the mate if it is not. So its genes are those of a parent, one by one, and as long as a word may
fall out either way, every such choice of genes is the child for some words. In terms of distances
these are the vectors on the shortest ways from the leader to the mate.

* `ends_crossover_drawn`: the genes of a child, and how many words it takes.
* `ledBy_crossover`: the words for a child.
* `Bits.distance_add_eq_iff`: which vectors are between two others.
* `crossover_between`: the children for all words.
-/

namespace SetCover

open Search

namespace Bits

variable {size : Nat} {a b c : Bits size}

theorem get_eq_false {i : Nat} (hi : a.width ≤ i) : a.get i = false := by
  simp [get, Nat.not_lt.mpr hi]

theorem Clean.ext_get (ha : a.Clean) (hb : b.Clean) (hwidth : a.width = b.width)
    (h : ∀ i < a.width, a.get i = b.get i) : a = b := by
  refine ext_stored hwidth fun i => ?_
  rw [ha.stored_eq, hb.stored_eq]
  by_cases hi : i < a.width
  · exact h i hi
  · rw [get_eq_false (by omega), get_eq_false (by omega)]

/-! ## Distances -/

/-- Counting the places where two sequences differ goes through a third one without a detour only
if that one agrees with either of them at each place. -/
theorem countP_ne_add (f g h : Nat → Bool) (l : List Nat) :
    l.countP (fun i => f i != h i) ≤
        l.countP (fun i => f i != g i) + l.countP (fun i => g i != h i) ∧
      (l.countP (fun i => f i != g i) + l.countP (fun i => g i != h i) =
          l.countP (fun i => f i != h i) ↔ ∀ i ∈ l, g i = f i ∨ g i = h i) := by
  induction l with
  | nil => simp
  | cons i l ih =>
      obtain ⟨hle, hiff⟩ := ih
      simp only [List.countP_cons, List.forall_mem_cons, ← hiff]
      cases f i <;> cases g i <;> cases h i <;> simp <;> omega

theorem distance_add_eq_iff : a.distance c + c.distance b = a.distance b ↔
    ∀ i < size * 64, c.stored i = a.stored i ∨ c.stored i = b.stored i := by
  rw [distance_eq, distance_eq, distance_eq, (countP_ne_add a.stored c.stored b.stored _).2]
  simp only [List.mem_range]

/-- The places in use decide, since all others are zero. -/
theorem Clean.distance_add_eq_iff (ha : a.Clean) (hb : b.Clean) (hc : c.Clean)
    (hwidth : c.width = a.width) :
    a.distance c + c.distance b = a.distance b ↔
      ∀ i < a.width, c.get i = a.get i ∨ c.get i = b.get i := by
  rw [Bits.distance_add_eq_iff]
  simp only [ha.stored_eq, hb.stored_eq, hc.stored_eq]
  constructor
  · intro h i hi
    exact h i (Nat.lt_of_lt_of_le hi a.width_le)
  · intro h i _
    by_cases hi : i < a.width
    · exact h i hi
    · rw [get_eq_false (by omega), get_eq_false (by omega)]
      exact Or.inl rfl

end Bits

/-! ## Draws -/

variable {copy p : Float} {chance : Chance} {leader mate child : Genes}
  {E : Fault → Session → Prop} {σ : Session}

/-- The parent that a word decides for. -/
def parentOf (chance : Chance) (leader mate : Genes) (word : UInt64) : Genes :=
  if chance.favours word then leader else mate

theorem ends_crossover_drawn (hchance : Chance.ofFloat? copy = some chance)
    (leader mate : Genes) :
    Ends (crossover copy leader mate) E (fun child σ' =>
      σ.Later (if chance.certain then 0 else leader.width) σ' ∧ child.width = leader.width ∧
        child.Clean ∧ ∀ i < leader.width, child.get i =
          (parentOf chance leader mate (σ.source.stream.word (σ.source.drawn + i))).get i) σ := by
  obtain ⟨blank, hblank⟩ := Bits.exists_blank? leader.width_le
  have hwidth : blank.width = leader.width := (Bits.blank?_eq_ok hblank).2.1
  have hfavoured : favouredBy copy = favoured chance := by
    unfold favouredBy
    rw [hchance]
  unfold crossover
  rw [hfavoured]
  refine ends_ofExcept_bind hblank ?_
  refine ends_bind (Bits.ends_assign_each blank chance
    (fun i favours => (if favours then leader else mate).get i) leader.width) ?_
  intro child σ' ⟨hlater, hwidth', hget⟩
  refine ends_pure ⟨hlater, hwidth'.trans hwidth, Bits.clean_truncate child, fun i hi => ?_⟩
  rw [Bits.get_truncate, hget, hwidth, if_pos ⟨hi, hi⟩]
  rfl

/-- The child is the vector that has, at each place, the gene of the parent its word decides for. -/
theorem exists_run_of_genes (leader mate : Genes) (σ : Session)
    (hchance : Chance.ofFloat? p = some chance) (hwidth : child.width = leader.width)
    (hchild : child.Clean) (hgenes : ∀ i < leader.width, child.get i =
      (parentOf chance leader mate (σ.source.stream.word (σ.source.drawn + i))).get i) :
    ∃ σ', (crossover p leader mate).run σ = .ok child σ' ∧
      σ.Later (if chance.certain then 0 else leader.width) σ' := by
  obtain ⟨made, σ', hrun, hlater, hmade, hclean, hget⟩ :=
    (ends_crossover_drawn hchance leader mate (σ := σ)).exists_run
  have hsame : made = child := by
    refine hclean.ext_get hchild (hmade.trans hwidth.symm) fun i hi => ?_
    have hi : i < leader.width := hmade ▸ hi
    rw [hget i hi, hgenes i hi]
  exact ⟨σ', hsame ▸ hrun, hlater⟩

/-- The words that make `child` out of its parents: favourable ones where it has the gene of the
leader. -/
def wordsFor (leader child : Genes) : List UInt64 :=
  (List.range leader.width).map fun i =>
    if child.get i = leader.get i then 0 else 0xffffffffffffffff

theorem getElem?_wordsFor {i : Nat} (hi : i < leader.width) : (wordsFor leader child)[i]? =
    some (if child.get i = leader.get i then 0 else 0xffffffffffffffff) := by
  simp [wordsFor, hi]

/-- These words lead to the child, if a word may fall out either way: if its chance is not that of
no word and not that of all. -/
theorem ledBy_crossover (hchance : Chance.ofFloat? p = some chance) (hsome : 0 < chance.words)
    (hnotAll : chance.words < 2 ^ 64) (hwidth : child.width = leader.width) (hchild : child.Clean)
    (hgenes : ∀ i < leader.width, child.get i = leader.get i ∨ child.get i = mate.get i) :
    LedBy (crossover p leader mate) (wordsFor leader child) child := by
  intro σ hbegins
  have hfirst : chance.favours 0 = true := by simpa [Chance.favours] using hsome
  have hlast : ¬ chance.favours 0xffffffffffffffff = true := by
    simp [Chance.favours]
    omega
  have huncertain : ¬ chance.certain = true := by
    simp only [Chance.certain, decide_eq_true_eq]
    omega
  have hdecided : ∀ i < leader.width, child.get i =
      (parentOf chance leader mate (σ.source.stream.word (σ.source.drawn + i))).get i := by
    intro i hi
    rw [hbegins i _ (getElem?_wordsFor hi)]
    by_cases hgene : child.get i = leader.get i
    · rw [if_pos hgene, parentOf, if_pos hfirst, hgene]
    · rw [if_neg hgene, parentOf, if_neg hlast, (hgenes i hi).resolve_left hgene]
  obtain ⟨σ', hrun, hlater⟩ := exists_run_of_genes leader mate σ hchance hwidth hchild hdecided
  rw [if_neg huncertain] at hlater
  rw [wordsFor, List.length_map, List.length_range]
  exact ends_of_run hrun ⟨rfl, hlater⟩

theorem exists_run_wordsFor (hchance : Chance.ofFloat? p = some chance) (hsome : 0 < chance.words)
    (hnotAll : chance.words < 2 ^ 64) (hwidth : child.width = leader.width) (hchild : child.Clean)
    (hgenes : ∀ i < leader.width, child.get i = leader.get i ∨ child.get i = mate.get i) :
    ∃ σ', (crossover p leader mate).run ⟨.ofStream (.ofList (wordsFor leader child)), []⟩ =
      .ok child σ' :=
  (ledBy_crossover hchance hsome hnotAll hwidth hchild hgenes).exists_run

/-! ## All children -/

/-- **Children.** Let the chance to copy from the leader be a number from zero to one. If it is the
share of a word at least, and less than one, then the children of two parents are, for one or other
stream of words, the vectors whose genes are those of a parent, one by one; these are the vectors
through which the way from one parent to the other is no detour. If it is one, the only child is the
leader, and no word is drawn. If it is less than the share of a word, the only child is the mate. -/
theorem crossover_between (leader mate : Genes) (hwidth : mate.width = leader.width)
    (hleader : leader.Clean) (hmate : mate.Clean) (p : Float) (hlow : 0.0 ≤ p) (hhigh : p ≤ 1.0) :
    (Chance.oneWord ≤ p → p < 1.0 →
      ∀ child : Genes, child.width = leader.width → child.Clean → List.TFAE [
        ∃ σ σ', (crossover p leader mate).run σ = .ok child σ',
        ∃ words σ', (crossover p leader mate).run ⟨.ofStream (.ofList words), []⟩ = .ok child σ',
        ∀ i < leader.width, child.get i = leader.get i ∨ child.get i = mate.get i,
        leader.distance child + child.distance mate = leader.distance mate]) ∧
    ((p == 1.0) = true → ∀ σ, ∃ σ', (crossover p leader mate).run σ = .ok leader σ' ∧
      σ.Later 0 σ') ∧
    (p < Chance.oneWord → ∀ σ, ∃ σ', (crossover p leader mate).run σ = .ok mate σ') := by
  obtain ⟨chance, hchance, hsome, hnotAll⟩ := Chance.exists_share hlow hhigh
  refine ⟨fun hword hone child hchildWidth hchild => ?_, fun hone σ => ?_, fun hword σ => ?_⟩
  · tfae_have 1 → 3
    | ⟨σ, σ', hrun⟩ => by
      obtain ⟨_, _, _, hget⟩ :=
        (ends_crossover_drawn hchance leader mate (E := noFault)).of_run hrun
      intro i hi
      rw [hget i hi, parentOf]
      split
      · exact Or.inl rfl
      · exact Or.inr rfl
    tfae_have 3 → 2 := fun hgenes =>
      ⟨_, exists_run_wordsFor hchance (hsome.mpr hword) (hnotAll.mpr hone) hchildWidth hchild
        hgenes⟩
    tfae_have 2 → 1 := fun ⟨_, hrun⟩ => ⟨_, hrun⟩
    tfae_have 4 ↔ 3 := hleader.distance_add_eq_iff hmate hchild hchildWidth
    tfae_finish
  · have hcertain : chance.certain = true := by
      have hfull : ¬ chance.words < 2 ^ 64 := fun h =>
        Comparison.not_lt_of_beq (Comparison.beq_symm hone) (hnotAll.mp h)
      have hle := chance.words_le
      simp only [Chance.certain, decide_eq_true_eq]
      omega
    have hleads : ∀ word, parentOf chance leader mate word = leader := fun word =>
      if_pos (Chance.favours_of_certain hcertain word)
    have hrun := exists_run_of_genes leader mate σ hchance rfl hleader fun i _ => by
      rw [hleads]
    rwa [if_pos hcertain] at hrun
  · have hnone : ∀ word, ¬ chance.favours word = true := by
      intro word
      have hzero : ¬ 0 < chance.words := fun h => Comparison.not_le_of_lt hword (hsome.mp h)
      simp only [Chance.favours, decide_eq_true_eq]
      omega
    have hmates : ∀ word, parentOf chance leader mate word = mate := fun word =>
      if_neg (hnone word)
    obtain ⟨σ', hrun, _⟩ := exists_run_of_genes leader mate σ hchance hwidth hmate fun i _ => by
      rw [hmates]
    exact ⟨σ', hrun⟩

/-- With even odds, the parents `{0, 1}` and `{1, 2}` can have the child `{1}`, but never one
without the member they share, nor one with a member that neither of them has. -/
theorem crossover_between_of_even_odds :
    ∃ blank : Genes, Bits.blank? geneWords 4 = .ok blank ∧
      ∃ leader mate : Genes, leader = (blank.set 0).set 1 ∧ mate = (blank.set 1).set 2 ∧
        mate.width = leader.width ∧ leader.Clean ∧ mate.Clean ∧ (0.0 : Float) ≤ 0.5 ∧
        (0.5 : Float) ≤ 1.0 ∧ Chance.oneWord ≤ 0.5 ∧ (0.5 : Float) < 1.0 ∧
        (∃ words σ', (crossover 0.5 leader mate).run ⟨.ofStream (.ofList words), []⟩ =
          .ok (blank.set 1) σ') ∧
        (¬ ∃ σ σ', (crossover 0.5 leader mate).run σ = .ok ((blank.set 0).set 2) σ') ∧
        ¬ ∃ σ σ', (crossover 0.5 leader mate).run σ = .ok ((blank.set 1).set 3) σ' := by
  obtain ⟨blank, hblank, hshared, hlost, hstray⟩ :
      ∃ blank : Genes, Bits.blank? geneWords 4 = .ok blank ∧
        (∀ i < 4, (blank.set 1).get i = ((blank.set 0).set 1).get i ∨
          (blank.set 1).get i = ((blank.set 1).set 2).get i) ∧
        (¬ ∀ i < 4, ((blank.set 0).set 2).get i = ((blank.set 0).set 1).get i ∨
          ((blank.set 0).set 2).get i = ((blank.set 1).set 2).get i) ∧
        ¬ ∀ i < 4, ((blank.set 1).set 3).get i = ((blank.set 0).set 1).get i ∨
          ((blank.set 1).set 3).get i = ((blank.set 1).set 2).get i :=
    ⟨_, rfl, by decide +kernel, by decide +kernel, by decide +kernel⟩
  obtain ⟨_, hwidth, hstored⟩ := Bits.blank?_eq_ok hblank
  have hclean : blank.Clean := fun i hi => by simp [hstored] at hi
  have hwidth' : ∀ i j, ((blank.set i).set j).width = 4 := fun i j => by simp [hwidth]
  obtain ⟨hlow, hhigh, hword, hone⟩ :
      (0.0 : Float) ≤ 0.5 ∧ (0.5 : Float) ≤ 1.0 ∧ Chance.oneWord ≤ 0.5 ∧ (0.5 : Float) < 1.0 := by
    decide +kernel
  have htfae := (crossover_between ((blank.set 0).set 1) ((blank.set 1).set 2)
    ((hwidth' 1 2).trans (hwidth' 0 1).symm) ((hclean.set 0).set 1) ((hclean.set 1).set 2) 0.5
    hlow hhigh).1 hword hone
  refine ⟨blank, hblank, _, _, rfl, rfl, (hwidth' 1 2).trans (hwidth' 0 1).symm,
    (hclean.set 0).set 1, (hclean.set 1).set 2, hlow, hhigh, hword, hone, ?_, ?_, ?_⟩
  · refine ((htfae (blank.set 1) (by simp) (hclean.set 1)).out 1 2).mpr ?_
    rwa [hwidth' 0 1]
  · intro hrun
    refine hlost ?_
    rw [← hwidth' 0 1]
    exact ((htfae _ (by simp) ((hclean.set 0).set 2)).out 0 2).mp hrun
  · intro hrun
    refine hstray ?_
    rw [← hwidth' 0 1]
    exact ((htfae _ (by simp) ((hclean.set 1).set 3)).out 0 2).mp hrun

end SetCover
