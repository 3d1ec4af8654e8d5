import SetCover.Heuristic.Call

/-!
# Solvers

A solver answers calls on one instance, one after another. Its calls share one random source, so
each call goes on with the words that the calls before it left.

* `Solver.start`: a solver at its start, for an instance that can be covered.
* `Solver.answer`: one call.
* `Solver.answers`: several calls.
-/

namespace SetCover

/-- Heuristics on an instance that can be covered, with the settings and the session they share. -/
structure Solver where
  inst : Instance
  settings : Settings
  session : Session
  coverable : inst.requireCoverable = .ok ()

namespace Solver

/-- A solver at its start. Refuses an instance that cannot be covered. -/
def start (inst : Instance) (settings : Settings) (source : Source) : Except Fault Solver :=
  match h : inst.requireCoverable with
  | .ok () => .ok { inst, settings, session := ⟨source, []⟩, coverable := h }
  | .error fault => .error fault

/-- The result of a call, and the solver afterwards. A call that fails keeps the words that it
took. -/
def answer (solver : Solver) (call : Call) (clock : Clock) : Except Fault Selection × Solver :=
  match ((call.job solver.inst solver.settings).run clock).run solver.session with
  | .ok s session => (.ok s, { solver with session })
  | .error fault session => (.error fault, { solver with session })

/-- The results of several calls in order, each with a clock of its own. -/
def answers (solver : Solver) : List (Call × Clock) → List (Except Fault Selection)
  | [] => []
  | (call, clock) :: rest =>
      (solver.answer call clock).1 :: (solver.answer call clock).2.answers rest

end Solver

end SetCover
