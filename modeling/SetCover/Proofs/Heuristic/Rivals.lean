import SetCover.Proofs.Greedy.Draws
import SetCover.Proofs.Heuristic.Leadership

/-!
# Rivals of the leader

Offspring compete with the leader when they come up, while the members that a pool starts with
never do. A cover in the pool that is cheaper than the leader is therefore one of those: no
generation brings one, and none takes one away as long as the leader is more expensive.

* `LeaderGenetic.Advances.slot_iff_of_cheaper`: what one generation does to such covers.
* `LeaderGenetic.State.KeepsRivals`, `ends_rounds_rivals`: the same for whole runs.
* `leaderGenetic_cheapest_iff`: when the leader costs no more than any cover in the pool.
-/

namespace SetCover

open Search

namespace LeaderGenetic

variable {inst : Instance} {attempts : Nat} {p : Parameters} {s₀ s s' : State} {m : Member}
  {E : Fault → Session → Prop} {σ : Session}

/-! ## Covers that are cheaper than the leader -/

theorem Advances.slot_iff_of_cheaper {size j : Nat} (h : Advances inst attempts p s s')
    (hs : s.Sound inst size) (hlt : m.cost < s'.leader.cost) :
    s'.slot j = some m ↔ s.slot j = some m := by
  rcases h.slot hs j with hsame | ⟨old, new, hold, hnew, hless, _, hle⟩
  · rw [hsame]
  · -- the member that is offered costs at least as much as the leader, so neither side holds
    constructor
    · intro hm
      rw [hnew] at hm
      cases hm
      exact absurd hlt (Nat.not_lt.mpr hle)
    · intro hm
      rw [hold] at hm
      cases hm
      exact absurd (Nat.lt_trans hless hlt) (Nat.not_lt.mpr hle)

/-- Below the cost of its leader, a state has the same members in the same places as another. -/
def State.KeepsRivals (s₀ s : State) : Prop :=
  ∀ j m, m.cost < s.leader.cost → (s.slot j = some m ↔ s₀.slot j = some m)

theorem State.KeepsRivals.advance {size : Nat} (hkeeps : s₀.KeepsRivals s)
    (h : Advances inst attempts p s s') (hs : s.Sound inst size) : s₀.KeepsRivals s' := by
  intro j m hlt
  rw [h.slot_iff_of_cheaper hs hlt]
  exact hkeeps j m (Nat.lt_of_lt_of_le hlt h.leader_cost_le)

theorem ends_rounds_rivals {subsetCount : Nat} (hcheck : p.check subsetCount = .ok ())
    (hshort : p.poolSize * 144 < 2 ^ 63) (h₀ : s₀.Sound inst p.poolSize) (settings : Settings)
    (budget : Nat) (clock : Clock) :
    Ends ((leaderGenetic inst settings budget p).rounds.run clock budget settings.rounds s₀) noFault
      (fun s _ => s.Sound inst p.poolSize ∧ s₀.KeepsRivals s) σ := by
  apply ends_runFrom
  · intro n s σ ⟨hs, hkeeps⟩
    apply (ends_generation_of_check hcheck hshort hs.leader n).weaken
    intro s' _ h
    exact ⟨h.sound hs, hkeeps.advance h hs⟩
  · exact ⟨h₀, fun j m _ => Iff.rfl⟩

/-- Whether a cover in the pool is cheaper than the leader is settled by the first pool. -/
theorem State.KeepsRivals.cheapest_iff (h : s₀.KeepsRivals s) :
    (∀ m ∈ s.pool.members, m.isCover inst = true → s.leader.cost ≤ m.cost) ↔
      ∀ m ∈ s₀.pool.members, m.isCover inst = true → s.leader.cost ≤ m.cost := by
  constructor
  · intro hall m hm hcover
    obtain ⟨j, hj⟩ := Array.mem_iff_getElem?.mp hm
    by_contra hlt
    have hsame := (h j m (Nat.lt_of_not_le hlt)).mpr hj
    exact hlt (hall m (Array.mem_iff_getElem?.mpr ⟨j, hsame⟩) hcover)
  · intro hall m hm hcover
    obtain ⟨j, hj⟩ := Array.mem_iff_getElem?.mp hm
    by_contra hlt
    have hsame := (h j m (Nat.lt_of_not_le hlt)).mp hj
    exact hlt (hall m (Array.mem_iff_getElem?.mpr ⟨j, hsame⟩) hcover)

end LeaderGenetic

open LeaderGenetic

/-- **What the answer of the genetic search is the cheapest of.** On a coverable instance with
parameters that pass the check, a run starts if the pool can be held in memory, and then ends with
its leader as the answer. The members of the last pool that are cheaper than the answer are exactly
those of the first pool, in their places. So no cover in the last pool is cheaper than the answer if
and only if none in the first pool is. -/
theorem leaderGenetic_cheapest_iff (inst : Instance) (hcoverable : inst.requireCoverable = .ok ())
    (hpos : 1 ≤ inst.subsetCount) (hcost : inst.totalCost < 2 ^ 63 - 1) (settings : Settings)
    (budget : Nat) (p : Parameters) (hcheck : p.check inst.subsetCount = .ok ()) (σ : Session) :
    (p.poolSize * 144 < 2 ^ 63 →
      ∃ s₀ σ₀, (leaderGenetic inst settings budget p).start.run σ = .ok s₀ σ₀) ∧
    ∀ s₀ σ₀, (leaderGenetic inst settings budget p).start.run σ = .ok s₀ σ₀ → ∀ clock,
      ∃ (s : LeaderGenetic.State) (σ' : Session) (a : Selection),
        ((leaderGenetic inst settings budget p).rounds.run clock budget settings.rounds s₀).run σ₀ =
          .ok s σ' ∧
        ((leaderGenetic inst settings budget p).run clock).run σ = .ok a σ' ∧
        a.IsCover inst ∧ a.cost = s.leader.cost ∧
        (∀ (j : Nat) (m : Member), m.cost < a.cost →
          (s.pool.members[j]? = some m ↔ s₀.pool.members[j]? = some m)) ∧
        ((∀ m ∈ s.pool.members, m.isCover inst = true → a.cost ≤ m.cost) ↔
          ∀ m ∈ s₀.pool.members, m.isCover inst = true → a.cost ≤ m.cost) := by
  have hcosts : ∀ id < inst.subsetCount, inst.costAt id < 2 ^ 63 - 1 := fun id hid =>
    Nat.lt_of_le_of_lt (Instance.costAt_le_totalCost hid) hcost
  obtain ⟨greedy, hgreedy, htotal⟩ := cheapestFirst_total hcoverable hpos hcosts
  have hstart := ends_start (p := p) (E := fun _ _ => 2 ^ 63 ≤ p.poolSize * 144) (σ := σ) settings
    budget ((htotal _ σ).weaken fun _ _ h => h ▸ hgreedy)
    (fun fault h => by rw [hcheck] at h; cases h) (fun _ h => h)
  constructor
  · intro hshort
    have htotal : Ends _ noFault _ σ :=
      hstart.mono (fun _ _ h => absurd hshort (Nat.not_lt.mpr h)) fun _ _ h => h
    obtain ⟨s₀, σ₀, hrun, _⟩ := htotal.exists_run
    exact ⟨s₀, σ₀, hrun⟩
  · intro s₀ σ₀ hrun₀ clock
    obtain ⟨_, hshort, hsound₀⟩ := hstart.of_run hrun₀
    obtain ⟨s, σ', hrun, hsound, hkeeps⟩ :=
      (ends_rounds_rivals (σ := σ₀) hcheck hshort hsound₀ settings budget clock).exists_run
    obtain ⟨a, ha, hcover, hvalue⟩ := hsound.leader.toSelection hsound.covers
    refine ⟨s, σ', a, hrun, job_run_eq hrun₀ hrun (run_answer ha), hcover, hvalue, ?_, ?_⟩
    · rw [hvalue]
      exact hkeeps
    · rw [hvalue]
      exact hkeeps.cheapest_iff

/-- A run with a pool of two on two elements. -/
theorem leaderGenetic_cheapest_of_two_elements :
    ∃ inst, Instance.build 2 4 [7, 3, 3, 1] [[0, 1, 2], [0, 1, 3]] = .ok inst ∧
      inst.requireCoverable = .ok () ∧ 1 ≤ inst.subsetCount ∧ inst.totalCost < 2 ^ 63 - 1 ∧
      Parameters.check ⟨2, 1, 0.5, 1⟩ inst.subsetCount = .ok () ∧
      ∃ s₀ σ₀, (leaderGenetic inst {} 5 ⟨2, 1, 0.5, 1⟩).start.run
          ⟨.ofStream (.ofList [3, 1, 4]), []⟩ = .ok s₀ σ₀ ∧
        ∀ clock, ∃ a σ', ((leaderGenetic inst {} 5 ⟨2, 1, 0.5, 1⟩).run clock).run
          ⟨.ofStream (.ofList [3, 1, 4]), []⟩ = .ok a σ' ∧ a.IsCover inst := by
  obtain ⟨inst, hbuild, hcoverable, hpos, hcost, hcheck⟩ :
      ∃ inst, Instance.build 2 4 [7, 3, 3, 1] [[0, 1, 2], [0, 1, 3]] = .ok inst ∧
        inst.requireCoverable = .ok () ∧ 1 ≤ inst.subsetCount ∧ inst.totalCost < 2 ^ 63 - 1 ∧
        Parameters.check ⟨2, 1, 0.5, 1⟩ inst.subsetCount = .ok () :=
    ⟨_, rfl, by with_unfolding_all rfl, by decide, by decide +kernel, by rfl⟩
  obtain ⟨hstart, hruns⟩ := leaderGenetic_cheapest_iff inst hcoverable hpos hcost {} 5
    ⟨2, 1, 0.5, 1⟩ hcheck ⟨.ofStream (.ofList [3, 1, 4]), []⟩
  obtain ⟨s₀, σ₀, hrun₀⟩ := hstart (by decide)
  refine ⟨inst, hbuild, hcoverable, hpos, hcost, hcheck, s₀, σ₀, hrun₀, ?_⟩
  intro clock
  obtain ⟨s, σ', a, _, hrun, hcover, _⟩ := hruns s₀ σ₀ hrun₀ clock
  exact ⟨a, σ', hrun, hcover⟩

/-! ## A rival that stays -/

/-- The next word decides the only member of a pool of one, for up to 64 subsets. -/
theorem ends_randomPool_one {inst : Instance} {σ : Session} {E : Fault → Session → Prop}
    (hcount : inst.subsetCount ≤ 64) {ids : IdSet}
    (hids : ∀ id, id ∈ ids ↔ id < inst.subsetCount ∧
      bitOf (σ.source.stream.word σ.source.drawn) id = true) :
    Ends (Pool.random inst 1) E
      (fun pool _ => ∃ m ∈ pool.members, m.Sound inst ∧ m.genes.toIds = ids) σ := by
  have hwidth : inst.subsetCount ≤ Bits.capacity geneWords := hcount.trans (by decide)
  unfold Pool.random
  apply ends_ite
  · intro hlong
    exact absurd hlong (by decide)
  · intro _
    unfold Pool.drawMembers
    apply ends_bind (R := fun members _ =>
      ∃ m ∈ (members : List Member), m.Sound inst ∧ m.genes.toIds = ids)
    · apply ends_bind (Bits.ends_random hwidth (by decide))
      rintro genes σ' ⟨hgenes, hclean, hget⟩
      apply ends_ofExcept_bind (Member.of?_eq_ok hgenes hclean)
      apply ends_pure
      refine ⟨Member.of inst genes, by simp, Member.sound_of hgenes hclean, ?_⟩
      apply IdSet.ext_mem
      intro id
      have hmem : id ∈ (Member.of inst genes).genes.toIds ↔ genes.get id = true :=
        Bits.mem_ones hclean
      rw [hmem, hget, hids, Bool.and_eq_true, decide_eq_true_eq]
      apply and_congr_right
      intro hlt
      have hword : id / 64 = 0 := Nat.div_eq_of_lt (Nat.lt_of_lt_of_le hlt hcount)
      have hplace : id % 64 = id := Nat.mod_eq_of_lt (Nat.lt_of_lt_of_le hlt hcount)
      have heven : ((0.5 : Float) == 0.5) = true := by decide
      rw [Bits.comesUp, if_pos heven, hword, hplace, Nat.add_zero]
    · rintro members σ' ⟨m, hm, h⟩
      exact ends_pure ⟨m, List.mem_toArray.mpr hm, h⟩

/-- The start of a run with a pool of one, where the word after the greedy construction is known. -/
theorem ends_start_of_word {inst : Instance} {σ : Session} {E : Fault → Session → Prop}
    {p : Parameters} (hcheck : p.check inst.subsetCount = .ok ()) (hsize : p.poolSize = 1)
    (hcount : inst.subsetCount ≤ 64) {first : Selection} (hcover : first.IsCover inst)
    {next : UInt64} (hfirst : Ends (cheapestFirst inst) E (fun s σ' => s = first ∧
      σ'.source.stream.word σ'.source.drawn = next) σ)
    {ids : IdSet} (hids : ∀ id, id ∈ ids ↔ id < inst.subsetCount ∧ bitOf next id = true)
    (settings : Settings) (budget : Nat) :
    Ends (leaderGenetic inst settings budget p).start E
      (fun s _ => (s.leader.Sound inst ∧ s.leader.isCover inst = true ∧
          s.leader.cost = first.cost) ∧
        ∃ m ∈ s.pool.members, m.Sound inst ∧ m.genes.toIds = ids) σ := by
  have hwidth : inst.subsetCount ≤ geneCapacity := (Parameters.check_spec hcheck).1
  apply ends_ofExcept_bind hcheck
  apply ends_bind hfirst
  intro s σ' ⟨hsame, hnext⟩
  subst hsame
  obtain ⟨leader, hleader⟩ := Member.exists_ofSelection (s := s) hwidth
  apply ends_ofExcept_bind hleader
  rw [hsize]
  rw [← hnext] at hids
  apply ends_bind (ends_randomPool_one hcount hids)
  intro pool σ'' hpool
  exact ends_pure ⟨⟨Member.sound_ofSelection hcover.consistent hleader,
    Member.isCover_ofSelection hcover hleader, (Member.ofSelection_spec hleader).2⟩, hpool⟩

/-- A stream that starts with the word 2 three times. All its words stand for a draw of one. -/
theorem word_twos : (∀ n, n ≤ 2 → (Stream.ofList [2, 2, 2]).word n = 2) ∧
    ∀ i, accepts 1 ((Stream.ofList [2, 2, 2]).word i) = true := by
  simp only [Stream.word_ofList]
  constructor
  · intro n hn
    match n, hn with
    | 0, _ => rfl
    | 1, _ => rfl
    | 2, _ => rfl
  · intro i
    match i with
    | 0 => decide
    | 1 => decide
    | 2 => decide
    | i + 3 => exact accepts_zero 1

/-- The greedy leader takes both subsets. The only member of the pool is the cover by the second
one, which is cheaper, and it never competes. -/
theorem leaderGenetic_overlooks_member :
    ∃ inst, Instance.build 2 2 [1, 2] [[0, 1], [1]] = .ok inst ∧
      inst.requireCoverable = .ok () ∧ 1 ≤ inst.subsetCount ∧ inst.totalCost < 2 ^ 63 - 1 ∧
      Parameters.check ⟨1, 1, 1.0, 1⟩ inst.subsetCount = .ok () ∧
      ∃ (s₀ s : LeaderGenetic.State) (σ₀ σ' : Session) (a : Selection),
        (leaderGenetic inst {} 0 ⟨1, 1, 1.0, 1⟩).start.run
          ⟨.ofStream (.ofList [2, 2, 2]), []⟩ = .ok s₀ σ₀ ∧
        ((leaderGenetic inst {} 0 ⟨1, 1, 1.0, 1⟩).rounds.run id 0 none s₀).run σ₀ = .ok s σ' ∧
        ((leaderGenetic inst {} 0 ⟨1, 1, 1.0, 1⟩).run id).run
          ⟨.ofStream (.ofList [2, 2, 2]), []⟩ = .ok a σ' ∧
        ∃ m ∈ s.pool.members, m.isCover inst = true ∧ m.cost < a.cost := by
  obtain ⟨inst, hbuild, hcoverable, hcount, hcost, hcheck, hplain, hboth, hcovers, hone, hcheaper⟩ :
      ∃ inst, Instance.build 2 2 [1, 2] [[0, 1], [1]] = .ok inst ∧
        inst.requireCoverable = .ok () ∧ inst.subsetCount = 2 ∧ inst.totalCost < 2 ^ 63 - 1 ∧
        Parameters.check ⟨1, 1, 1.0, 1⟩ inst.subsetCount = .ok () ∧
        Greedy.plain inst = some (.ofList [0, 1]) ∧
        inst.weight [0, 1] = 3 ∧ inst.covers (.ofList [0, 1]) = true ∧
        inst.weight [1] = 2 ∧ inst.covers (.ofList [1]) = true :=
    ⟨_, rfl, by with_unfolding_all rfl, rfl, by decide +kernel, by rfl,
      Greedy.plain_of_pairwise (by with_unfolding_all decide) (by with_unfolding_all rfl), rfl,
      by with_unfolding_all rfl, rfl, by with_unfolding_all rfl⟩
  have hpos : 1 ≤ inst.subsetCount := by omega
  have hids : ∀ id ∈ IdSet.ofList [0, 1], id < inst.subsetCount := by
    rw [hcount]
    decide
  obtain ⟨htwo, haccepts⟩ := word_twos
  generalize Stream.ofList [2, 2, 2] = stream at htwo haccepts
  have hfirst : Ends (cheapestFirst inst) noFault
      (fun s σ' => s = ⟨3, 2, .ofList [0, 1]⟩ ∧ σ'.source.stream.word σ'.source.drawn = 2)
      ⟨.ofStream stream, []⟩ := by
    apply ((ends_cheapestFirst hcoverable hpos hplain hids).also
      (ends_cheapestFirst_later (σ := ⟨.ofStream stream, []⟩) haccepts)).weaken
    intro s σ' ⟨hs, n, hn, hstream, hdrawn⟩
    constructor
    · rw [hs]
      exact congrArg (Selection.mk · _ _) hboth
    · rw [hstream, hdrawn]
      apply htwo
      show 0 + n ≤ 2
      omega
  have hcover : (⟨3, 2, .ofList [0, 1]⟩ : Selection).IsCover inst :=
    ⟨⟨hboth.symm, rfl, hids⟩, hcovers⟩
  have hbits : ∀ id, id ∈ IdSet.ofList [1] ↔ id < inst.subsetCount ∧ bitOf 2 id = true := by
    intro id
    rw [hcount, IdSet.mem_ofList, List.mem_singleton]
    match id with
    | 0 => decide
    | 1 => decide
    | id + 2 => simp
  have hstart := ends_start_of_word (E := noFault) (p := ⟨1, 1, 1.0, 1⟩) hcheck rfl (by omega)
    hcover hfirst hbits {} 0
  obtain ⟨s₀, σ₀, hrun₀, ⟨hsound, hleads, hvalue⟩, m, hm, hmember, hgenes⟩ := hstart.exists_run
  obtain ⟨a, ha, _, haCost⟩ := hsound.toSelection hleads
  have hover : ((leaderGenetic inst {} 0 ⟨1, 1, 1.0, 1⟩).rounds.run id 0 none s₀).run σ₀ =
      .ok s₀ σ₀ := by
    rw [Anytime.run_of_over (Or.inl rfl)]
    rfl
  refine ⟨inst, hbuild, hcoverable, hpos, hcost, hcheck, s₀, s₀, σ₀, σ₀, a, hrun₀, hover,
    job_run_eq hrun₀ hover (run_answer ha), m, hm, ?_, ?_⟩
  · rw [hmember.isCover_iff, hgenes]
    exact hcheaper
  · have hones : m.genes.ones = [1] := congrArg IdSet.toList hgenes
    rw [haCost, hvalue, hmember.cost_eq, hones, hone]
    decide

end SetCover
