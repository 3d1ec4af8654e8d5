import SetCover.Proofs.Heuristic.Annealing
import SetCover.Proofs.Heuristic.Descent
import SetCover.Proofs.Heuristic.Leadership
import SetCover.Solver

/-!
# Solvers answer with covers

Whatever a solver was asked before, and whatever words and times come up, an answer is a cover that
tells the truth about its cost and its size.

* `Call.ends_job`: the answer to one call.
* `Solver.answers_isCover`: the answers to several calls.
-/

namespace SetCover

open Search

variable {inst : Instance} {E : Fault → Session → Prop} {σ : Session}

theorem ends_once {x : Search Selection} (clock : Clock)
    (h : Ends x E (fun s _ => s.IsCover inst) σ) :
    Ends ((Job.once x).run clock) E (fun s _ => s.IsCover inst) σ :=
  ends_job (I := fun s : Selection => s.IsCover inst) h (fun _ _ _ hs => ends_pure hs)
    (fun _ _ hs => ends_pure hs) clock

theorem ends_variableNeighbourhood (settings : Settings) (budget : Nat) (clock : Clock)
    (hfirst : Ends (cheapestFirst inst) E (fun s _ => s.IsCover inst) σ) :
    Ends ((variableNeighbourhood inst settings budget).run clock) E
      (fun s _ => s.IsCover inst) σ :=
  ends_job (I := fun s : Selection => s.IsCover inst) hfirst
    (fun n _ _ hs => ends_descend_isCover settings.swapAttempts n _ hs)
    (fun _ _ hs => ends_pure hs) clock

theorem ends_leaderGenetic (settings : Settings) (budget : Nat) {p : LeaderGenetic.Parameters}
    (clock : Clock) (hfirst : Ends (cheapestFirst inst) E (fun s _ => s.IsCover inst) σ)
    (hcheck : ∀ fault, p.check inst.subsetCount = .error fault → E fault σ)
    (hlong : ∀ σ, 2 ^ 63 ≤ p.poolSize * 144 → E (.breach .overLong) σ) :
    Ends ((leaderGenetic inst settings budget p).run clock) E (fun s _ => s.IsCover inst) σ := by
  refine ends_job (I := fun s : LeaderGenetic.State => p.check inst.subsetCount = .ok () ∧
    p.poolSize * 144 < 2 ^ 63 ∧ s.Sound inst p.poolSize)
    (LeaderGenetic.ends_start settings budget hfirst hcheck hlong) ?_ ?_ clock
  · -- once a run has started, there is nothing left that could fail
    rintro n s σ ⟨hok, hshort, hs⟩
    exact (LeaderGenetic.ends_generation_of_check hok hshort hs.leader n).mono
      (fun _ _ h => h.elim) fun s' _ h => ⟨hok, hshort, h.sound hs⟩
  · rintro s σ ⟨_, _, hs⟩
    obtain ⟨a, ha, hcover, _⟩ := hs.leader.toSelection hs.covers
    exact ends_of_run (LeaderGenetic.run_answer ha) hcover

/-- The answer to a call is a cover. -/
theorem Call.ends_job (settings : Settings) (call : Call) (clock : Clock) :
    Ends ((call.job inst settings).run clock) anyFault (fun s _ => s.IsCover inst) σ := by
  have hfirst : Ends (SetCover.cheapestFirst inst) anyFault (fun s _ => s.IsCover inst) σ :=
    ends_multistart 1 1 0
  cases call with
  | cheapestFirst => exact ends_once clock hfirst
  | multistart count size noise => exact ends_once clock (ends_multistart count size noise)
  | annealing budget start moves cooling =>
      exact ends_annealing settings budget cooling clock hfirst fun _ _ => trivial
  | neighbourhoods budget => exact ends_variableNeighbourhood settings budget clock hfirst
  | genetic budget parameters =>
      exact ends_leaderGenetic settings budget clock hfirst (fun _ _ => trivial) fun _ _ => trivial

namespace Solver

/-! ## Several calls -/

theorem answer_isCover (solver : Solver) (call : Call) (clock : Clock) {s : Selection}
    (hs : (solver.answer call clock).1 = .ok s) : s.IsCover solver.inst := by
  unfold answer at hs
  have hends : Ends ((call.job solver.inst solver.settings).run clock) anyFault
      (fun s _ => s.IsCover solver.inst) solver.session :=
    call.ends_job solver.settings clock
  cases hrun : ((call.job solver.inst solver.settings).run clock).run solver.session with
  | ok a session =>
      rw [hrun] at hs
      cases hs
      exact hends.of_run hrun
  | error fault session =>
      rw [hrun] at hs
      cases hs

theorem answer_eq {solver : Solver} {call : Call} {clock : Clock} {s : Selection}
    {session : Session} (h : ((call.job solver.inst solver.settings).run clock).run
      solver.session = .ok s session) :
    solver.answer call clock = (.ok s, { solver with session }) := by
  unfold answer
  rw [h]

theorem answer_eq_ok {solver : Solver} {call : Call} {clock : Clock} {s : Selection}
    {session : Session} (h : ((call.job solver.inst solver.settings).run clock).run
      solver.session = .ok s session) : (solver.answer call clock).1 = .ok s :=
  congrArg Prod.fst (answer_eq h)

theorem exists_run_of_answer {solver : Solver} {call : Call} {clock : Clock} {s : Selection}
    (h : (solver.answer call clock).1 = .ok s) : ∃ σ,
      ((call.job solver.inst solver.settings).run clock).run solver.session = .ok s σ := by
  unfold answer at h
  split at h
  · next t σ hrun =>
      cases h
      exact ⟨σ, hrun⟩
  · cases h

theorem inst_answer (solver : Solver) (call : Call) (clock : Clock) :
    (solver.answer call clock).2.inst = solver.inst := by
  unfold answer
  split
  · rfl
  · rfl

theorem mem_answers {solver : Solver} {calls : List (Call × Clock)} {s : Selection}
    (hs : .ok s ∈ solver.answers calls) : s.IsCover solver.inst := by
  induction calls generalizing solver with
  | nil => cases hs
  | cons p rest ih =>
      obtain ⟨call, clock⟩ := p
      rcases List.mem_cons.mp hs with hfirst | hrest
      · exact solver.answer_isCover call clock hfirst.symm
      · have hcover := ih hrest
        rwa [inst_answer] at hcover

theorem start_eq_ok (hcoverable : inst.requireCoverable = .ok ()) {settings : Settings}
    {source : Source} : start inst settings source =
      .ok ⟨inst, settings, ⟨source, []⟩, hcoverable⟩ := by
  unfold start
  split
  · rfl
  · next herror =>
      rw [hcoverable] at herror
      cases herror

theorem start_eq_error {fault : Fault} (h : inst.requireCoverable = .error fault)
    {settings : Settings} {source : Source} : start inst settings source = .error fault := by
  unfold start
  split
  · next hok =>
      rw [h] at hok
      cases hok
  · next herror =>
      rw [h] at herror
      cases herror
      rfl

theorem exists_start (hcoverable : inst.requireCoverable = .ok ()) (settings : Settings)
    (source : Source) : ∃ solver, start inst settings source = .ok solver :=
  ⟨_, start_eq_ok hcoverable⟩

theorem inst_start {settings : Settings} {source : Source} {solver : Solver}
    (h : start inst settings source = .ok solver) : solver.inst = inst := by
  unfold start at h
  split at h
  · cases h
    rfl
  · cases h

/-- **Answers are covers.** Calls on one solver, in any order and with any parameters, each with a
clock of its own: whatever of them does not fail gives a cover of known ids with its own cost and
size. -/
theorem answers_isCover (inst : Instance) (settings : Settings) (source : Source) (solver : Solver)
    (hstart : start inst settings source = .ok solver) (calls : List (Call × Clock))
    (s : Selection) (hs : .ok s ∈ solver.answers calls) :
    (∀ id ∈ s.ids, id < inst.subsetCount) ∧ inst.covers s.ids = true ∧
      s.cost = inst.weight s.ids.toList ∧ s.size = s.ids.card := by
  obtain ⟨⟨hcost, hsize, hids⟩, hcovers⟩ := inst_start hstart ▸ mem_answers hs
  exact ⟨hids, hcovers, hcost, hsize⟩

/-- The second of two calls has an answer; the first asks for the best of no constructions. -/
theorem answers_isCover_after_refusal :
    ∃ inst solver s, Instance.build 2 4 [7, 3, 3, 1] [[0, 1, 2], [0, 1, 3]] = .ok inst ∧
      start inst {} (.ofStream (.ofList [3, 1, 4])) = .ok solver ∧
      .ok s ∈ solver.answers [(.multistart 0 1 0, id), (.cheapestFirst, id)] ∧
      (∀ id ∈ s.ids, id < inst.subsetCount) ∧ inst.covers s.ids = true ∧
      s.cost = inst.weight s.ids.toList ∧ s.size = s.ids.card := by
  obtain ⟨inst, hbuild, hcoverable, hpos, hcosts⟩ :
      ∃ inst, Instance.build 2 4 [7, 3, 3, 1] [[0, 1, 2], [0, 1, 3]] = .ok inst ∧
        inst.requireCoverable = .ok () ∧ 1 ≤ inst.subsetCount ∧
        ∀ id < inst.subsetCount, inst.costAt id < 2 ^ 63 - 1 :=
    ⟨_, rfl, by with_unfolding_all rfl, by decide, by decide +kernel⟩
  obtain ⟨solver, hstart⟩ := exists_start hcoverable {} (.ofStream (.ofList [3, 1, 4]))
  obtain ⟨greedy, _, htotal⟩ := cheapestFirst_total hcoverable hpos hcosts
  have hfirst : ∀ other : Solver, other.inst = inst →
      (other.answer .cheapestFirst id).1 = .ok greedy := by
    rintro other rfl
    obtain ⟨_, σ, hrun, rfl⟩ := (htotal noFault other.session).exists_run
    exact answer_eq_ok (job_run_eq hrun rfl rfl)
  have hsecond : .ok greedy ∈ solver.answers [(.multistart 0 1 0, id), (.cheapestFirst, id)] := by
    refine List.mem_cons_of_mem _ (List.mem_cons.mpr (Or.inl (hfirst _ ?_).symm))
    rw [inst_answer, inst_start hstart]
  exact ⟨inst, solver, greedy, hbuild, hstart, hsecond,
    answers_isCover inst {} (.ofStream (.ofList [3, 1, 4])) solver hstart _ greedy hsecond⟩

end Solver

end SetCover
