import SetCover.Proofs.Genetic.Generation
import SetCover.Proofs.Genetic.Recombination

/-!
# Attempts at an offspring

An offspring is the first child that covers, among a number of children that are made one after
another, each with a mate and coins of its own. The words to come decide which children these are.
For some words or other, the offspring is any cover whose genes are, one by one, those of the leader
or of one and the same mate. There may be none exactly where a mate shares too few genes with the
leader: the child that has just what they share covers least.

* `Attempt`, `attempts`: the children that the words to come make.
* `ends_offspring_attempts`: the offspring is the first of them that covers.
* `canGive_child`, `canGive_none`: words for an offspring, and words for none.
* `offspring_outcomes`: the outcomes for all words.
-/

namespace SetCover

open Search

variable {inst : Instance} {copy p : Float} {chance : Chance} {leader : Member}
  {mates : List Member} {E : Fault → Session → Prop} {σ σ' : Session}

/-! ## Vectors with given members -/

namespace Bits

variable {size : Nat}

/-- The vector of the same width whose members are those that `f` accepts. -/
def withMembers (b : Bits size) (f : Nat → Bool) : Bits size :=
  ((List.range b.width).foldl (fun c i => c.assign i (f i)) b).truncate

theorem foldl_assign (b : Bits size) (f : Nat → Bool) (n : Nat) :
    ((List.range n).foldl (fun c i => c.assign i (f i)) b).width = b.width ∧
      ∀ i < b.width, i < n →
        ((List.range n).foldl (fun c i => c.assign i (f i)) b).get i = f i := by
  induction n with
  | zero => exact ⟨rfl, fun i _ hi => absurd hi (Nat.not_lt_zero i)⟩
  | succ n ih =>
      obtain ⟨hwidth, hget⟩ := ih
      rw [List.range_succ, List.foldl_append, List.foldl_cons, List.foldl_nil]
      refine ⟨by rw [width_assign, hwidth], fun i hi hin => ?_⟩
      rw [get_assign, hwidth]
      split
      · next h => rw [h.1]
      · next h =>
          refine hget i hi ?_
          by_contra hge
          exact h ⟨by omega, by omega⟩

theorem width_withMembers (b : Bits size) (f : Nat → Bool) :
    (b.withMembers f).width = b.width := by
  rw [withMembers, width_truncate, (foldl_assign b f b.width).1]

theorem clean_withMembers (b : Bits size) (f : Nat → Bool) : (b.withMembers f).Clean :=
  clean_truncate _

theorem get_withMembers (b : Bits size) (f : Nat → Bool) {i : Nat} (hi : i < b.width) :
    (b.withMembers f).get i = f i := by
  rw [withMembers, get_truncate, (foldl_assign b f b.width).2 i hi hi]

end Bits

/-! ## The children that are made -/

/-- A child that is made, and where the words after it come from. -/
structure Attempt where
  child : Genes
  after : Source

/-- Whether the child covers every element. -/
def Attempt.covers (inst : Instance) (a : Attempt) : Bool := inst.coveredBy a.child.get

/-- The child of a leader and a mate, with the next words as the coins of its genes. -/
def childOf (chance : Chance) (leader mate : Genes) (source : Source) : Attempt where
  child := leader.withMembers fun i =>
    (parentOf chance leader mate (source.stream.word (source.drawn + i))).get i
  after := .ofPlace source.stream (source.drawn + if chance.certain then 0 else leader.width)

/-- The children that the next words make, one after another, if there are mates. For each of them
a mate is drawn first. -/
def attempts (chance : Chance) (leader : Genes) (mates : List Member) : Nat → Source → List Attempt
  | 0, _ => []
  | left + 1, source =>
      if h : 0 < mates.length then
        let drawn := source.below mates.length h
        let made := childOf chance leader (mates.get drawn.1).genes drawn.2
        made :: attempts chance leader mates left made.after
      else []

theorem length_attempts (hmates : mates ≠ []) (left : Nat) (source : Source) (leader : Genes) :
    (attempts chance leader mates left source).length = left := by
  induction left generalizing source with
  | zero => rfl
  | succ left ih =>
      rw [attempts, dif_pos (List.length_pos_iff.mpr hmates)]
      exact congrArg (· + 1) (ih _)

/-- A child has the genes of the leader and of one of the mates. -/
theorem mem_attempts {leader : Genes} {left : Nat} {source : Source} {made : Attempt}
    (h : made ∈ attempts chance leader mates left source) :
    made.child.width = leader.width ∧ made.child.Clean ∧ ∃ mate ∈ mates, ∀ i < leader.width,
      made.child.get i = leader.get i ∨ made.child.get i = mate.genes.get i := by
  induction left generalizing source with
  | zero => exact absurd h List.not_mem_nil
  | succ left ih =>
      rw [attempts] at h
      split at h
      · next hpos =>
          rcases List.mem_cons.mp h with rfl | h
          · refine ⟨Bits.width_withMembers _ _, Bits.clean_withMembers _ _,
              mates.get (source.below mates.length hpos).1, List.get_mem .., fun i hi => ?_⟩
            rw [childOf, Bits.get_withMembers _ _ hi, parentOf]
            split
            · exact Or.inl rfl
            · exact Or.inr rfl
          · exact ih h
      · exact absurd h List.not_mem_nil

/-! ## The first child that covers -/

theorem Session.Later.source_eq {taken : Nat} (h : σ.Later taken σ') :
    σ'.source = .ofPlace σ.source.stream (σ.source.drawn + taken) := by
  rw [σ'.source.eq_ofPlace, h.1, h.2]

theorem ends_crossover_childOf (hchance : Chance.ofFloat? copy = some chance)
    (leader mate : Genes) :
    Ends (crossover copy leader mate) E (fun child σ' =>
      child = (childOf chance leader mate σ.source).child ∧
        σ'.source = (childOf chance leader mate σ.source).after) σ := by
  refine (ends_crossover_drawn hchance leader mate).weaken ?_
  rintro child σ' ⟨hlater, hwidth, hclean, hget⟩
  refine ⟨?_, hlater.source_eq⟩
  refine hclean.ext_get (Bits.clean_withMembers _ _)
    (hwidth.trans (Bits.width_withMembers _ _).symm) fun i hi => ?_
  rw [hwidth] at hi
  rw [hget i hi, childOf, Bits.get_withMembers _ _ hi]

/-- What an offspring is, in terms of the first child that covers: that child, and no word after
those for it is taken. -/
def IsFirstCover (inst : Instance) (made : List Attempt) (o : Option Member) (source : Source) :
    Prop :=
  match made.find? (Attempt.covers inst) with
  | some a => o = some (.of inst a.child) ∧ source = a.after
  | none => o = none

section

variable {a : Attempt} {made : List Attempt} {o : Option Member} {source : Source}

theorem isFirstCover_cons_of_covers (hcovers : a.covers inst = true) :
    IsFirstCover inst (a :: made) (some (.of inst a.child)) a.after := by
  unfold IsFirstCover
  rw [List.find?_cons_of_pos hcovers]
  exact ⟨rfl, rfl⟩

theorem IsFirstCover.cons_of_fails (hfails : ¬ a.covers inst = true)
    (h : IsFirstCover inst made o source) : IsFirstCover inst (a :: made) o source := by
  unfold IsFirstCover
  rw [List.find?_cons_of_neg hfails]
  exact h

end

theorem ends_offspringFrom_attempts (hchance : Chance.ofFloat? copy = some chance)
    (hwidth : leader.genes.width = inst.subsetCount) (hmates : mates ≠ []) (tries left : Nat) :
    Ends (offspringFrom inst copy tries leader mates left) E (fun o σ' =>
      IsFirstCover inst (attempts chance leader.genes mates left σ.source) o σ'.source) σ := by
  have hpos : 0 < mates.length := List.length_pos_iff.mpr hmates
  induction left generalizing σ with
  | zero => exact ends_note_bind (ends_pure rfl)
  | succ left ih =>
      rw [offspringFrom, attempts, dif_pos hpos]
      refine ends_below_run_bind hpos ?_
      refine ends_bind (ends_crossover_childOf hchance leader.genes _) ?_
      rintro _ σ₁ ⟨rfl, hafter⟩
      refine ends_ite (fun hcovers => ?_) fun hfails => ?_
      · refine ends_ofExcept_bind (Member.of?_eq_ok ?_ (Bits.clean_withMembers _ _)) (ends_pure ?_)
        · exact (Bits.width_withMembers _ _).trans hwidth
        · rw [hafter]
          exact isFirstCover_cons_of_covers hcovers
      · have ih := ih (σ := σ₁)
        rw [hafter] at ih
        exact ih.weaken fun o σ' hfirst => hfirst.cons_of_fails hfails

/-- The offspring is the first child that covers. -/
theorem ends_offspring_attempts (hchance : Chance.ofFloat? copy = some chance)
    (hwidth : leader.genes.width = inst.subsetCount) (tries : Nat) :
    Ends (offspring inst copy tries leader mates) E (fun o σ' =>
      IsFirstCover inst (attempts chance leader.genes mates tries σ.source) o σ'.source) σ := by
  unfold offspring
  refine ends_ite (fun hempty => ends_pure ?_) fun hsome => ?_
  · obtain rfl := List.isEmpty_iff.mp hempty
    cases tries with
    | zero => rfl
    | succ left => rfl
  · have hmates : mates ≠ [] := fun hnil => hsome (List.isEmpty_iff.mpr hnil)
    exact ends_offspringFrom_attempts hchance hwidth hmates _ _

/-! ## What may come out -/

/-- The genes are those of the leader or of the mate, one by one. -/
def Genes.Between (child leader mate : Genes) : Prop :=
  ∀ i < leader.width, child.get i = leader.get i ∨ child.get i = mate.get i

/-- Whether both parents have the gene. -/
def sharedGene (leader mate : Genes) (i : Nat) : Bool := leader.get i && mate.get i

/-- A child covers what the shared genes cover. -/
theorem coveredBy_of_shared {child mate : Genes} (hwidth : leader.genes.width = inst.subsetCount)
    (hbetween : Genes.Between child leader.genes mate)
    (hshared : inst.coveredBy (sharedGene leader.genes mate) = true) :
    inst.coveredBy child.get = true := by
  rw [Instance.coveredBy_iff] at hshared ⊢
  apply hshared.mono
  intro i hi hboth
  obtain ⟨hleads, hmates⟩ := Bool.and_eq_true_iff.mp hboth
  rcases hbetween i (hwidth ▸ hi) with hgene | hgene
  · exact hgene.trans hleads
  · exact hgene.trans hmates

theorem sound_of_isFirstCover {c : Member} {tries : Nat} {source source' : Source}
    (hwidth : leader.genes.width = inst.subsetCount)
    (h : IsFirstCover inst (attempts chance leader.genes mates tries source) (some c) source') :
    c.Sound inst ∧ c.isCover inst = true ∧
      ∃ mate ∈ mates, Genes.Between c.genes leader.genes mate.genes := by
  unfold IsFirstCover at h
  split at h
  · next a hfind =>
      obtain ⟨hchild, _⟩ := h
      cases hchild
      have hcovers : a.covers inst = true := List.find?_some hfind
      obtain ⟨hwidth', hclean, hmate⟩ := mem_attempts (List.mem_of_find?_eq_some hfind)
      exact ⟨Member.sound_of (hwidth'.trans hwidth) hclean, hcovers, hmate⟩
  · cases h

theorem exists_uncovered_of_isFirstCover {tries : Nat} {source source' : Source}
    (hwidth : leader.genes.width = inst.subsetCount) (htries : 1 ≤ tries)
    (h : IsFirstCover inst (attempts chance leader.genes mates tries source) none source') :
    mates = [] ∨ ∃ mate ∈ mates, inst.coveredBy (sharedGene leader.genes mate.genes) = false := by
  unfold IsFirstCover at h
  split at h
  · cases h.1
  · next hfind =>
      by_cases hmates : mates = []
      · exact Or.inl hmates
      · -- the first child does not cover
        have hlength : (attempts chance leader.genes mates tries source).length = tries :=
          length_attempts hmates tries source leader.genes
        obtain ⟨a, ha⟩ := List.exists_mem_of_length_pos (Nat.lt_of_lt_of_eq htries hlength.symm)
        obtain ⟨_, _, mate, hmate, hbetween⟩ := mem_attempts ha
        refine Or.inr ⟨mate, hmate, ?_⟩
        rw [← Bool.not_eq_true]
        intro hshared
        exact List.find?_eq_none.mp hfind a ha (coveredBy_of_shared hwidth hbetween hshared)

/-! ## Words for an outcome -/

theorem canGive_crossover {child mate : Genes} (hchance : Chance.ofFloat? p = some chance)
    (hsome : 0 < chance.words) (hnotAll : chance.words < 2 ^ 64)
    (hwidth : child.width = leader.genes.width) (hchild : child.Clean)
    (hbetween : Genes.Between child leader.genes mate) :
    CanGive (crossover p leader.genes mate) child :=
  ⟨_, ledBy_crossover hchance hsome hnotAll hwidth hchild hbetween⟩

/-- The first attempt can be any child that covers. -/
theorem canGive_child {c mate : Member} {tries : Nat} (hchance : Chance.ofFloat? p = some chance)
    (hsome : 0 < chance.words) (hnotAll : chance.words < 2 ^ 64)
    (hwidth : leader.genes.width = inst.subsetCount) (hcount : mates.length < 2 ^ 64)
    (htries : 1 ≤ tries) (hsound : c.Sound inst) (hcover : c.isCover inst = true)
    (hmate : mate ∈ mates) (hbetween : Genes.Between c.genes leader.genes mate.genes) :
    CanGive (offspring inst p tries leader mates) (some c) := by
  obtain ⟨left, rfl⟩ := Nat.exists_eq_add_of_le' htries
  obtain ⟨i, rfl⟩ := List.get_of_mem hmate
  have hsome' : ¬ mates.isEmpty = true := fun hempty =>
    List.ne_nil_of_mem hmate (List.isEmpty_iff.mp hempty)
  have hc : Member.of? inst c.genes = .ok c := by
    rw [Member.of?_eq_ok hsound.width_eq hsound.clean, Member.of, ← hsound.cost_eq]
  unfold offspring
  rw [if_neg hsome', offspringFrom]
  refine (canGive_below hcount i).bind ?_
  refine (canGive_crossover hchance hsome hnotAll (hsound.width_eq.trans hwidth.symm)
    hsound.clean hbetween).bind ?_
  rw [if_pos (show inst.coveredBy c.genes.get = true from hcover)]
  exact (canGive_ofExcept hc).bind (canGive_pure _)

/-- All attempts can fail if the shared genes of the leader and one mate do not cover. -/
theorem canGive_none {mate : Member} (hchance : Chance.ofFloat? p = some chance)
    (hsome : 0 < chance.words) (hnotAll : chance.words < 2 ^ 64)
    (hwidth : leader.genes.width = inst.subsetCount) (hcount : mates.length < 2 ^ 64)
    (hmate : mate ∈ mates)
    (hfails : inst.coveredBy (sharedGene leader.genes mate.genes) = false) (tries : Nat) :
    CanGive (offspring inst p tries leader mates) none := by
  obtain ⟨i, rfl⟩ := List.get_of_mem hmate
  have hsome' : ¬ mates.isEmpty = true := fun hempty =>
    List.ne_nil_of_mem hmate (List.isEmpty_iff.mp hempty)
  generalize hshared : leader.genes.withMembers
    (sharedGene leader.genes (mates.get i).genes) = shared
  have hget : ∀ j < leader.genes.width,
      shared.get j = sharedGene leader.genes (mates.get i).genes j := fun j hj =>
    hshared ▸ Bits.get_withMembers _ _ hj
  have hbetween : Genes.Between shared leader.genes (mates.get i).genes := by
    intro j hj
    rw [hget j hj, sharedGene]
    cases leader.genes.get j with
    | false => exact Or.inl rfl
    | true => exact Or.inr rfl
  have hchild : CanGive (crossover p leader.genes (mates.get i).genes) shared :=
    canGive_crossover hchance hsome hnotAll (hshared ▸ Bits.width_withMembers _ _)
      (hshared ▸ Bits.clean_withMembers _ _) hbetween
  have huncovered : ¬ inst.coveredBy shared.get = true := by
    rw [Instance.coveredBy_eq_of_known fun s hs => hget s (hwidth ▸ hs), hfails]
    exact Bool.false_ne_true
  unfold offspring
  rw [if_neg hsome']
  -- every attempt makes the child of the shared genes
  have hall : ∀ left, CanGive (offspringFrom inst p tries leader mates left) none := by
    intro left
    induction left with
    | zero => exact (canGive_note _).bind (canGive_pure _)
    | succ left ih =>
        refine (canGive_below hcount i).bind (hchild.bind ?_)
        rw [if_neg huncovered]
        exact ih
  exact hall tries

/-! ## All outcomes -/

/-- **Offspring.** Let leader and mates have a gene for every subset and no stray bits, and let the
chance to copy from the leader be the share of a word at least, and less than one. Then an offspring
is, for one or other stream of words, any cover with the cost of its genes whose genes are, one by
one, those of the leader or of one of the mates. There is none, for one or other stream, exactly
where there is no mate, or the genes that the leader shares with one of them are no cover. For each
stream the offspring is the first child that covers, among the children that the words make, with a
mate drawn for each of them and then a coin for each gene; nothing is drawn after that child. -/
theorem offspring_outcomes (inst : Instance) (leader : Member) (mates : List Member)
    (hleader : leader.genes.width = inst.subsetCount ∧ leader.genes.Clean)
    (hmates : ∀ m ∈ mates, m.genes.width = inst.subsetCount ∧ m.genes.Clean)
    (hcount : mates.length ≤ 2 ^ 63) (p : Float) (hlow : Chance.oneWord ≤ p) (hhigh : p < 1.0)
    (tries : Nat) (htries : 1 ≤ tries) :
    (∀ c : Member, List.TFAE [
      ∃ σ σ', (offspring inst p tries leader mates).run σ = .ok (some c) σ',
      ∃ words σ', (offspring inst p tries leader mates).run ⟨.ofStream (.ofList words), []⟩ =
        .ok (some c) σ',
      c.Sound inst ∧ c.isCover inst = true ∧
        ∃ mate ∈ mates, Genes.Between c.genes leader.genes mate.genes]) ∧
    List.TFAE [
      ∃ σ σ', (offspring inst p tries leader mates).run σ = .ok none σ',
      ∃ words σ', (offspring inst p tries leader mates).run ⟨.ofStream (.ofList words), []⟩ =
        .ok none σ',
      mates = [] ∨
        ∃ mate ∈ mates, inst.coveredBy (sharedGene leader.genes mate.genes) = false] ∧
    ∃ chance, Chance.ofFloat? p = some chance ∧ ∀ σ, ∃ o σ',
      (offspring inst p tries leader mates).run σ = .ok o σ' ∧
        IsFirstCover inst (attempts chance leader.genes mates tries σ.source) o σ'.source := by
  obtain ⟨chance, hchance, hsome, hnotAll⟩ := Chance.exists_between hlow hhigh
  have hends : ∀ σ, Ends (offspring inst p tries leader mates) noFault (fun o σ' =>
      IsFirstCover inst (attempts chance leader.genes mates tries σ.source) o σ'.source) σ :=
    fun σ => ends_offspring_attempts hchance hleader.1 tries
  have hcount : mates.length < 2 ^ 64 := by omega
  refine ⟨fun c => ?_, ?_, chance, hchance, fun σ => (hends σ).exists_run⟩
  · tfae_have 1 → 3 := fun ⟨σ, _, hrun⟩ =>
      sound_of_isFirstCover hleader.1 ((hends σ).of_run hrun)
    tfae_have 3 → 2 := fun ⟨hsound, hcover, mate, hmate, hbetween⟩ =>
      (canGive_child hchance hsome hnotAll hleader.1 hcount htries hsound hcover hmate
        hbetween).exists_run
    tfae_have 2 → 1 := fun ⟨_, hrun⟩ => ⟨_, hrun⟩
    tfae_finish
  · tfae_have 1 → 3 := fun ⟨σ, _, hrun⟩ =>
      exists_uncovered_of_isFirstCover hleader.1 htries ((hends σ).of_run hrun)
    tfae_have 3 → 2 := by
      intro hnone
      rcases hnone with rfl | ⟨mate, hmate, hfails⟩
      · exact ⟨[], _, rfl⟩
      · exact (canGive_none hchance hsome hnotAll hleader.1 hcount hmate hfails tries).exists_run
    tfae_have 2 → 1 := fun ⟨_, hrun⟩ => ⟨_, hrun⟩
    tfae_finish

/-- The subset that the parents `{0, 1}` and `{1, 2}` share is no cover. So there may be no
offspring. It may also be `{1, 2}`, but never `{1, 3}`, which is a cover as well. -/
theorem offspring_outcomes_of_even_odds :
    ∃ inst, Instance.build 2 4 [2, 3, 5, 9] [[0, 2, 3], [1, 3]] = .ok inst ∧
      ∃ blank : Genes, Bits.blank? geneWords 4 = .ok blank ∧
        ∃ leader mate other : Member, leader = .of inst ((blank.set 0).set 1) ∧
          mate = .of inst ((blank.set 1).set 2) ∧ other = .of inst ((blank.set 1).set 3) ∧
          (leader.genes.width = inst.subsetCount ∧ leader.genes.Clean) ∧
          (∀ m ∈ [mate], m.genes.width = inst.subsetCount ∧ m.genes.Clean) ∧
          [mate].length ≤ 2 ^ 63 ∧ Chance.oneWord ≤ 0.5 ∧ (0.5 : Float) < 1.0 ∧ 1 ≤ 3 ∧
          (∃ words σ', (offspring inst 0.5 3 leader [mate]).run ⟨.ofStream (.ofList words), []⟩ =
            .ok (some mate) σ') ∧
          (∃ words σ', (offspring inst 0.5 3 leader [mate]).run ⟨.ofStream (.ofList words), []⟩ =
            .ok none σ') ∧
          ¬ ∃ σ σ', (offspring inst 0.5 3 leader [mate]).run σ = .ok (some other) σ' := by
  obtain ⟨inst, hbuild, hcount, blank, hblank, hcover, hfails, hstray⟩ :
      ∃ inst, Instance.build 2 4 [2, 3, 5, 9] [[0, 2, 3], [1, 3]] = .ok inst ∧
        inst.subsetCount = 4 ∧ ∃ blank : Genes, Bits.blank? geneWords 4 = .ok blank ∧
        inst.coveredBy ((blank.set 1).set 2).get = true ∧
        inst.coveredBy (sharedGene ((blank.set 0).set 1) ((blank.set 1).set 2)) = false ∧
        ¬ ∀ i < 4, ((blank.set 1).set 3).get i = ((blank.set 0).set 1).get i ∨
          ((blank.set 1).set 3).get i = ((blank.set 1).set 2).get i :=
    ⟨_, rfl, rfl, _, rfl, by decide +kernel, by decide +kernel, by decide +kernel⟩
  obtain ⟨_, hwidth, hstored⟩ := Bits.blank?_eq_ok hblank
  have hclean : blank.Clean := fun i hi => by simp [hstored] at hi
  have hparent : ∀ i j, ((blank.set i).set j).width = inst.subsetCount ∧
      ((blank.set i).set j).Clean := fun i j =>
    ⟨by simp [hwidth, hcount], (hclean.set i).set j⟩
  have hmates : ∀ m ∈ [Member.of inst ((blank.set 1).set 2)],
      m.genes.width = inst.subsetCount ∧ m.genes.Clean := by
    simpa [Member.of] using hparent 1 2
  have hone : [Member.of inst ((blank.set 1).set 2)].length ≤ 2 ^ 63 := Nat.one_le_two_pow
  obtain ⟨hlow, hhigh⟩ : Chance.oneWord ≤ 0.5 ∧ (0.5 : Float) < 1.0 := by decide +kernel
  obtain ⟨hsome, hnone, _⟩ := offspring_outcomes inst (.of inst ((blank.set 0).set 1))
    [.of inst ((blank.set 1).set 2)] (hparent 0 1) hmates hone 0.5 hlow hhigh 3 (by decide)
  refine ⟨inst, hbuild, blank, hblank, _, _, _, rfl, rfl, rfl, hparent 0 1, hmates, hone, hlow,
    hhigh, by decide, ?_, ?_, ?_⟩
  · refine ((hsome _).out 1 2).mpr ?_
    exact ⟨Member.sound_of (hparent 1 2).1 (hparent 1 2).2, hcover, _, List.mem_cons_self,
      fun i _ => Or.inr rfl⟩
  · refine (hnone.out 1 2).mpr ?_
    exact Or.inr ⟨_, List.mem_cons_self, hfails⟩
  · intro hrun
    obtain ⟨_, _, mate, hmate, hbetween⟩ := ((hsome _).out 0 2).mp hrun
    obtain rfl := List.mem_singleton.mp hmate
    refine hstray ?_
    rw [← hcount, ← (hparent 0 1).1]
    exact hbetween

end SetCover
