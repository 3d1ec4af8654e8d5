import SetCover.Proofs.Greedy.Order
import SetCover.Proofs.Solver.Covers

/-!
# Answers that nothing before them changes

The cheapest-first construction is the same whatever words are drawn, so it does not matter what a
solver was asked before. It is the choice that one pass over the subsets makes, from the cheapest
on, and several such constructions are no better than one.

* `Solver.exists_answers_append`: later calls are answered by a solver for the same instance.
* `Solver.answers_cheapestFirst`: what cheapest-first calls are answered with.
-/

namespace SetCover

open Search

variable {inst : Instance}

namespace Solver

theorem exists_answers_append (solver : Solver) (calls : List (Call × Clock)) :
    ∃ later : Solver, later.inst = solver.inst ∧
      ∀ more, solver.answers (calls ++ more) = solver.answers calls ++ later.answers more := by
  induction calls generalizing solver with
  | nil => exact ⟨solver, rfl, fun more => rfl⟩
  | cons p calls ih =>
      obtain ⟨call, clock⟩ := p
      obtain ⟨later, hinst, hmore⟩ := ih (solver.answer call clock).2
      refine ⟨later, hinst.trans (inst_answer ..), ?_⟩
      intro more
      rw [List.cons_append, answers, answers, hmore, List.cons_append]

/-- **The cheapest-first construction.** On a coverable instance with costs below the mark of taken
subsets it always gives the same cover: whatever the session, whatever calls a solver answered
before, and also for the best of any number of constructions from shortlists of one. It is the
cover that one pass takes over the subsets in the order of their costs, and of their ids where costs
are equal: each subset is taken that holds an element which no subset before it holds, until no
element is left. -/
theorem answers_cheapestFirst (hcoverable : inst.requireCoverable = .ok ())
    (hpos : 1 ≤ inst.subsetCount)
    (hcosts : ∀ id < inst.subsetCount, inst.costAt id < 2 ^ 63 - 1) :
    ∃ (greedy : Selection) (order : List Nat), greedy.IsCover inst ∧
      order.Perm (List.range inst.subsetCount) ∧ order.Pairwise inst.Before ∧
      greedy.ids = .ofList (inst.takeNew order (List.range inst.elementCount)) ∧
      (∀ s, s ∈ greedy.ids ↔
        ∃ e ∈ inst.contentsOf s, ∀ t, inst.Before t s → e ∉ inst.contentsOf t) ∧
      (∀ σ, ∃ σ', (cheapestFirst inst).run σ = .ok greedy σ') ∧
      (∀ count σ, 1 ≤ count → ∃ σ', (multistart inst count 1 0).run σ = .ok greedy σ') ∧
      ∀ solver : Solver, solver.inst = inst → ∀ calls clock count, 1 ≤ count →
        solver.answers (calls ++ [(.cheapestFirst, clock), (.multistart count 1 0, clock)]) =
          solver.answers calls ++ [.ok greedy, .ok greedy] := by
  obtain ⟨ids, hplain, hids, hcovers⟩ := Greedy.exists_plain hcoverable hcosts
  obtain ⟨order, hperm, hordered, htaken⟩ := Greedy.exists_order hcosts hplain
  have hmultistart : ∀ count σ, 1 ≤ count → ∃ σ', (multistart inst count 1 0).run σ =
      .ok ⟨inst.weight ids.toList, ids.card, ids⟩ σ' := by
    intro count σ hcount
    obtain ⟨_, σ', hrun, rfl⟩ := (ends_multistart_plain (E := noFault) (σ := σ) hcoverable hpos
      hplain hids hcount).exists_run
    exact ⟨σ', hrun⟩
  have hanswer : ∀ solver : Solver, solver.inst = inst → ∀ clock count, 1 ≤ count →
      (solver.answer (.multistart count 1 0) clock).1 =
        .ok ⟨inst.weight ids.toList, ids.card, ids⟩ := by
    intro solver hinst clock count hcount
    subst hinst
    obtain ⟨σ', hrun⟩ := hmultistart count solver.session hcount
    exact answer_eq_ok (job_run_eq hrun rfl rfl)
  refine ⟨⟨inst.weight ids.toList, ids.card, ids⟩, order, ⟨⟨rfl, rfl, hids⟩, hcovers⟩, hperm,
    hordered, htaken, fun s => Greedy.mem_plain_iff hcosts hplain,
    fun σ => hmultistart 1 σ (Nat.le_refl 1), hmultistart, ?_⟩
  intro solver hinst calls clock count hcount
  obtain ⟨later, hlater, hmore⟩ := solver.exists_answers_append calls
  have hfirst : (later.answer .cheapestFirst clock).1 =
      .ok ⟨inst.weight ids.toList, ids.card, ids⟩ :=
    hanswer later (hlater.trans hinst) clock 1 (Nat.le_refl 1)
  have hsecond := hanswer (later.answer .cheapestFirst clock).2
    ((inst_answer ..).trans (hlater.trans hinst)) clock count hcount
  rw [hmore, answers, answers, answers, hfirst, hsecond]

/-- Two subsets cost the same; of these the one with the smaller id comes first. -/
theorem answers_cheapestFirst_of_equal_costs :
    ∃ inst, Instance.build 2 4 [7, 3, 3, 1] [[0, 1, 2], [0, 1, 3]] = .ok inst ∧
      ∃ (greedy : Selection) (order : List Nat), greedy.IsCover inst ∧
        order.Perm (List.range inst.subsetCount) ∧ order.Pairwise inst.Before ∧
        greedy.ids = .ofList (inst.takeNew order (List.range inst.elementCount)) ∧
        ∀ solver : Solver, solver.inst = inst → ∀ calls clock count, 1 ≤ count →
          solver.answers (calls ++ [(.cheapestFirst, clock), (.multistart count 1 0, clock)]) =
            solver.answers calls ++ [.ok greedy, .ok greedy] := by
  obtain ⟨inst, hbuild, hcoverable, hpos, hcosts⟩ :
      ∃ inst, Instance.build 2 4 [7, 3, 3, 1] [[0, 1, 2], [0, 1, 3]] = .ok inst ∧
        inst.requireCoverable = .ok () ∧ 1 ≤ inst.subsetCount ∧
        ∀ id < inst.subsetCount, inst.costAt id < 2 ^ 63 - 1 :=
    ⟨_, rfl, by with_unfolding_all rfl, by decide, by decide +kernel⟩
  obtain ⟨greedy, order, hcover, hperm, hordered, htaken, _, _, _, hanswers⟩ :=
    answers_cheapestFirst hcoverable hpos hcosts
  exact ⟨inst, hbuild, greedy, order, hcover, hperm, hordered, htaken, hanswers⟩

end Solver

end SetCover
