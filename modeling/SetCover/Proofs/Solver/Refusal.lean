import SetCover.Proofs.Greedy.Totality
import SetCover.Proofs.Heuristic.Parameters
import SetCover.Proofs.Solver.Covers

/-!
# Refused calls

What can be wrong with a call is found out from its parameters before a word is drawn. A call that
is not refused has an answer, so none of the preconditions on the way to it is ever broken.

* `Call.Refused`, `Call.RefusedWith`: which calls are refused, and with what.
* `Call.exists_refusal`: a call that is refused changes nothing.
* `Call.ends_job_total`: a call that is not refused has a cover for its answer.
* `Solver.answer_error_iff`: so the calls that fail are those that are refused.
-/

namespace SetCover

open Search

variable {inst : Instance} {settings : Settings} {clock : Clock} {σ : Session}

/-- The parameters of a call are impossible, or those of any call on an instance without
subsets. -/
def Call.Refused (inst : Instance) (call : Call) : Prop :=
  inst.subsetCount = 0 ∨
    match call with
    | .cheapestFirst | .neighbourhoods _ => False
    | .multistart count size _ => count = 0 ∨ ¬ (1 ≤ size ∧ size ≤ inst.subsetCount)
    | .annealing _ start moves _ =>
        start.isNaN = true ∨ start.isInf = true ∨ start < 0.0 ∨ moves = 0
    | .genetic _ p =>
        1024 < inst.subsetCount ∨ p.poolSize = 0 ∨ ¬ (1 ≤ p.mates ∧ p.mates ≤ p.poolSize) ∨
          (p.copy.isNaN = true ∨ p.copy < 0.0 ∨ 1.0 < p.copy) ∨ p.sample = 0

/-- What a call is refused with: too many subsets for the genes come before everything else, and
all other refusals are of parameters. -/
def Call.RefusedWith (inst : Instance) (call : Call) (fault : Fault) : Prop :=
  match call with
  | .genetic _ _ =>
      if 1024 < inst.subsetCount then fault = .tooWide inst.subsetCount 1024
      else ∃ why, fault = .invalid why
  | _ => ∃ why, fault = .invalid why

/-- The noise fits, and there is room for the members of the pool, as there is for 2 ^ 32 of
them. -/
def Call.Fits (inst : Instance) : Call → Prop
  | .multistart _ _ noise => inst.NoiseFits noise
  | .genetic _ p => p.poolSize * 144 < 2 ^ 63
  | _ => True

/-! ## Calls that are refused -/

theorem exists_refusal_of_cheapestFirst (σ : Session) (h : inst.subsetCount = 0) :
    ∃ why, (cheapestFirst inst).run σ = .error (.invalid why) σ :=
  exists_refusal_of_multistart 0 σ (Or.inr (Or.inr (by omega)))

/-- A call that is refused leaves the session as it was. -/
theorem Call.exists_refusal (settings : Settings) {call : Call} (clock : Clock) (σ : Session)
    (h : call.Refused inst) :
    ∃ fault, call.RefusedWith inst fault ∧
      ((call.job inst settings).run clock).run σ = .error fault σ := by
  have hempty : inst.subsetCount = 0 → ∃ why, (SetCover.cheapestFirst inst).run σ =
      .error (.invalid why) σ := exists_refusal_of_cheapestFirst σ
  cases call with
  | cheapestFirst =>
      obtain ⟨why, hrun⟩ := hempty (h.resolve_right id)
      exact ⟨_, ⟨why, rfl⟩, run_bind_error hrun⟩
  | multistart count size noise =>
      have hparameters : count = 0 ∨ size = 0 ∨ inst.subsetCount < size := by
        rcases h with h | h | h
        · omega
        · exact Or.inl h
        · omega
      obtain ⟨why, hrun⟩ := exists_refusal_of_multistart noise σ hparameters
      exact ⟨_, ⟨why, rfl⟩, run_bind_error hrun⟩
  | annealing budget start moves cooling =>
      cases hcheck : Annealing.check start moves with
      | error fault =>
          exact ⟨fault, Annealing.check_error hcheck, run_bind_error (run_ofExcept_error hcheck)⟩
      | ok _ =>
          obtain ⟨why, hrun⟩ := hempty (h.resolve_right (Annealing.check_eq_ok_iff.mp hcheck))
          exact ⟨_, ⟨why, rfl⟩,
            run_bind_error ((run_ofExcept_ok hcheck).trans (run_bind_error hrun))⟩
  | neighbourhoods budget =>
      obtain ⟨why, hrun⟩ := hempty (h.resolve_right id)
      exact ⟨_, ⟨why, rfl⟩, run_bind_error hrun⟩
  | genetic budget p =>
      cases hcheck : p.check inst.subsetCount with
      | error fault =>
          exact ⟨fault, LeaderGenetic.check_error hcheck,
            run_bind_error (run_ofExcept_error hcheck)⟩
      | ok _ =>
          have hzero : inst.subsetCount = 0 :=
            h.resolve_right (LeaderGenetic.check_eq_ok_iff.mp hcheck)
          obtain ⟨why, hrun⟩ := hempty hzero
          have hwith : (Call.genetic budget p).RefusedWith inst (.invalid why) := by
            show if 1024 < inst.subsetCount then _ else _
            rw [if_neg (by omega)]
            exact ⟨why, rfl⟩
          exact ⟨_, hwith, run_bind_error ((run_ofExcept_ok hcheck).trans (run_bind_error hrun))⟩

/-! ## Calls that are not refused -/

theorem not_error_of_eq_ok {x : Except Fault Unit} (h : x = .ok ()) (fault : Fault)
    (herror : x = .error fault) : False := by
  rw [h] at herror
  cases herror

/-- A call that is not refused has a cover for its answer. -/
theorem Call.ends_job_total (hcoverable : inst.requireCoverable = .ok ())
    (hcost : inst.totalCost < 2 ^ 63 - 1) (settings : Settings) {call : Call}
    (hfits : call.Fits inst) (h : ¬ call.Refused inst) (clock : Clock) :
    Ends ((call.job inst settings).run clock) noFault (fun s _ => s.IsCover inst) σ := by
  obtain ⟨hsome, h⟩ := not_or.mp h
  have hpos : 1 ≤ inst.subsetCount := Nat.one_le_iff_ne_zero.mpr hsome
  have hcosts : ∀ id < inst.subsetCount, inst.costAt id < 2 ^ 63 - 1 := Instance.costAt_lt hcost
  obtain ⟨greedy, hgreedy, htotal⟩ := cheapestFirst_total hcoverable hpos hcosts
  have hfirst : Ends (SetCover.cheapestFirst inst) noFault (fun s _ => s.IsCover inst) σ :=
    (htotal noFault σ).weaken fun _ _ h => h ▸ hgreedy
  cases call with
  | cheapestFirst => exact ends_once clock hfirst
  | multistart count size noise =>
      obtain ⟨hcount, hsize⟩ := not_or.mp h
      obtain ⟨hone, hle⟩ := Classical.not_not.mp hsize
      have hbest : Ends (SetCover.multistart inst count size noise) noFault (fun _ _ => True) σ :=
        ends_multistart_total hcoverable hcosts hfits (Nat.one_le_iff_ne_zero.mpr hcount) hone hle
      exact ends_once clock ((hbest.also (ends_multistart count size noise)).weaken
        fun _ _ h => h.2)
  | annealing budget start moves cooling =>
      exact ends_annealing settings budget cooling clock hfirst
        (not_error_of_eq_ok (Annealing.check_eq_ok_iff.mpr h))
  | neighbourhoods budget => exact ends_variableNeighbourhood settings budget clock hfirst
  | genetic budget p =>
      exact ends_leaderGenetic settings budget clock hfirst
        (not_error_of_eq_ok (LeaderGenetic.check_eq_ok_iff.mpr h))
        fun _ hlong => absurd hfits (Nat.not_lt.mpr hlong)

namespace Solver

/-! ## Solvers -/

theorem answer_eq_error {solver : Solver} {call : Call} {fault : Fault}
    (h : ((call.job solver.inst solver.settings).run clock).run solver.session =
      .error fault solver.session) : solver.answer call clock = (.error fault, solver) := by
  unfold answer
  rw [h]

theorem exists_answer (solver : Solver) (hcost : solver.inst.totalCost < 2 ^ 63 - 1) {call : Call}
    (hfits : call.Fits solver.inst) (h : ¬ call.Refused solver.inst) (clock : Clock) :
    ∃ s, (solver.answer call clock).1 = .ok s := by
  obtain ⟨s, _, hrun, _⟩ :=
    (Call.ends_job_total solver.coverable hcost solver.settings hfits h clock).exists_run
  exact ⟨s, answer_eq_ok hrun⟩

/-- **Which calls fail.** Whatever was asked of a solver before, a call fails if and only if its
parameters are refused. It fails with the fault of the refusal, never with one of a broken
precondition, and leaves the solver as it was: no word is drawn and nothing is written down. -/
theorem answer_error_iff (solver : Solver) (hcost : solver.inst.totalCost < 2 ^ 63 - 1)
    (call : Call) (hfits : call.Fits solver.inst) (clock : Clock) :
    ((∃ fault, (solver.answer call clock).1 = .error fault) ↔ call.Refused solver.inst) ∧
      ∀ fault, (solver.answer call clock).1 = .error fault →
        call.RefusedWith solver.inst fault ∧ (solver.answer call clock).2 = solver := by
  have hrefused : ∀ fault, (solver.answer call clock).1 = .error fault →
      call.Refused solver.inst := by
    intro fault herror
    by_cases h : call.Refused solver.inst
    · exact h
    · obtain ⟨s, hs⟩ := solver.exists_answer hcost hfits h clock
      rw [herror] at hs
      cases hs
  have hanswer : call.Refused solver.inst → ∃ fault, call.RefusedWith solver.inst fault ∧
      solver.answer call clock = (.error fault, solver) := by
    intro h
    obtain ⟨fault, hwith, hrun⟩ := Call.exists_refusal solver.settings clock solver.session h
    exact ⟨fault, hwith, answer_eq_error hrun⟩
  refine ⟨⟨fun ⟨fault, herror⟩ => hrefused fault herror, fun h => ?_⟩, fun fault herror => ?_⟩
  · obtain ⟨fault, _, hsame⟩ := hanswer h
    exact ⟨fault, congrArg Prod.fst hsame⟩
  · obtain ⟨fault', hwith, hsame⟩ := hanswer (hrefused fault herror)
    rw [hsame] at herror ⊢
    cases herror
    exact ⟨hwith, rfl⟩

/-- A solver on two elements at its start. -/
theorem exists_of_two_elements :
    ∃ inst solver, Instance.build 2 4 [7, 3, 3, 1] [[0, 1, 2], [0, 1, 3]] = .ok inst ∧
      start inst {} (.ofStream (.ofList [3, 1, 4])) = .ok solver ∧ solver.inst = inst ∧
      solver.inst.subsetCount = 4 ∧ solver.inst.totalCost < 2 ^ 63 - 1 := by
  obtain ⟨inst, hbuild, hcoverable, hcount, hcost⟩ :
      ∃ inst, Instance.build 2 4 [7, 3, 3, 1] [[0, 1, 2], [0, 1, 3]] = .ok inst ∧
        inst.requireCoverable = .ok () ∧ inst.subsetCount = 4 ∧ inst.totalCost < 2 ^ 63 - 1 :=
    ⟨_, rfl, by with_unfolding_all rfl, rfl, by decide +kernel⟩
  obtain ⟨solver, hstart⟩ := exists_start hcoverable {} (.ofStream (.ofList [3, 1, 4]))
  obtain rfl := inst_start hstart
  exact ⟨solver.inst, solver, hbuild, hstart, rfl, hcount, hcost⟩

/-- Three mates are asked for in a pool of two. -/
theorem answer_error_of_too_many_mates :
    ∃ inst solver fault, Instance.build 2 4 [7, 3, 3, 1] [[0, 1, 2], [0, 1, 3]] = .ok inst ∧
      start inst {} (.ofStream (.ofList [3, 1, 4])) = .ok solver ∧
      solver.inst.totalCost < 2 ^ 63 - 1 ∧
      (Call.genetic 5 ⟨2, 3, 0.5, 1⟩).Fits solver.inst ∧
      (solver.answer (.genetic 5 ⟨2, 3, 0.5, 1⟩) id).1 = .error fault ∧
      (∃ why, fault = .invalid why) ∧
      (solver.answer (.genetic 5 ⟨2, 3, 0.5, 1⟩) id).2 = solver := by
  obtain ⟨_, solver, hbuild, hstart, rfl, hcount, hcost⟩ := exists_of_two_elements
  have hfits : (Call.genetic 5 ⟨2, 3, 0.5, 1⟩).Fits solver.inst := show 2 * 144 < 2 ^ 63 by decide
  obtain ⟨hiff, hwith⟩ := answer_error_iff solver hcost (.genetic 5 ⟨2, 3, 0.5, 1⟩) hfits id
  obtain ⟨fault, herror⟩ := hiff.mpr (Or.inr (Or.inr (Or.inr (Or.inl (by decide)))))
  obtain ⟨hfault, hsame⟩ := hwith fault herror
  refine ⟨solver.inst, solver, fault, hbuild, hstart, hcost, hfits, herror, ?_, hsame⟩
  have hfault : if 1024 < solver.inst.subsetCount then fault = .tooWide solver.inst.subsetCount 1024
      else ∃ why, fault = .invalid why := hfault
  rwa [hcount, if_neg (by decide)] at hfault

end Solver

end SetCover
