import SetCover.Experiment.Basic
import SetCover.Instance.File
import SetCover.Proofs.Results
import SetCover.Proofs.Solver.Refusal
import SetCover.Random.Keystream
import SetCover.Report.Record

/-!
# Findings of an experiment

What an experiment finds for one file, apart from the time that it takes: the instance is read, a
solver is made for it with a source of its own, and the calls of the experiment are made on that
solver one after another. The first fault is what comes out instead.

* `Record.untimed`, `Record.ShowsCover`: a record without its time, and what it says of a cover.
* `Solver.findings`: the records of calls on one solver.
* `Experiment.findings`: the records of an experiment for one file.
* `Experiment.showsCover_of_findings`: every record shows a cover.
* `Experiment.exists_findings`: where no call is refused there is no fault.
-/

namespace SetCover

variable {inst : Instance}

/-! ## Records -/

/-- The record without the time that it took. -/
def Record.untimed (r : Record) : Record := { r with runtime := 0 }

/-- The record lists a cover of the instance, counted from one, with its cost and its size. -/
structure Record.ShowsCover (inst : Instance) (r : Record) : Prop where
  instanceName_eq : r.instanceName = inst.name
  ascending : r.ids.Pairwise (· < ·)
  ids_between : ∀ i ∈ r.ids, 1 ≤ i ∧ i ≤ inst.subsetCount
  covers : inst.Covers fun s => s + 1 ∈ r.ids
  cost_eq : r.cost = (r.ids.map fun i => inst.costAt (i - 1)).sum
  size_eq : r.size = r.ids.length

theorem Record.showsCover_untimed_iff {r : Record} :
    r.untimed.ShowsCover inst ↔ r.ShowsCover inst :=
  ⟨fun h => ⟨h.1, h.2, h.3, h.4, h.5, h.6⟩, fun h => ⟨h.1, h.2, h.3, h.4, h.5, h.6⟩⟩

theorem Record.showsCover_of {s : Selection} (h : s.IsCover inst) (heuristic : String)
    (runtime : Span) : (Record.of inst heuristic s runtime).ShowsCover inst := by
  obtain ⟨⟨hcost, hsize, hids⟩, hcovers⟩ := h
  constructor
  · rfl
  · apply List.Pairwise.map (R := (· < ·)) _ _ s.ids.ascending
    intro a b hab
    exact Nat.succ_lt_succ hab
  · intro i hi
    obtain ⟨id, hid, rfl⟩ := List.mem_map.mp hi
    exact ⟨Nat.succ_pos id, hids id hid⟩
  · intro e he
    obtain ⟨t, ht, hchosen⟩ := Instance.covers_iff.mp hcovers e he
    exact ⟨t, ht, List.mem_map.mpr ⟨t, hchosen, rfl⟩⟩
  · show s.cost = ((s.ids.toList.map (· + 1)).map fun i => inst.costAt (i - 1)).sum
    rw [hcost, List.map_map]
    rfl
  · show s.size = (s.ids.toList.map (· + 1)).length
    rw [hsize, List.length_map]
    rfl

/-! ## One solver -/

namespace Solver

/-- The records of calls with the names of their heuristics, made when no time passes. -/
def findings (solver : Solver) : List (String × Call) → Except Fault (List Record)
  | [] => .ok []
  | (heuristic, call) :: rest =>
      match solver.answer call fun _ => 0 with
      | (.error fault, _) => .error fault
      | (.ok s, solver') => do
          let records ← solver'.findings rest
          pure (Record.of solver.inst heuristic s ⟨0⟩ :: records)

theorem findings_of_error {solver : Solver} {heuristic : String} {call : Call} {fault : Fault}
    {session : Session} (hrun : ((call.job solver.inst solver.settings).run fun _ => 0).run
      solver.session = .error fault session) (rest : List (String × Call)) :
    solver.findings ((heuristic, call) :: rest) = .error fault := by
  unfold findings answer
  rw [hrun]

theorem findings_of_ok {solver : Solver} {heuristic : String} {call : Call} {s : Selection}
    {session : Session} (hrun : ((call.job solver.inst solver.settings).run fun _ => 0).run
      solver.session = .ok s session) (rest : List (String × Call)) :
    solver.findings ((heuristic, call) :: rest) =
      ({ solver with session } : Solver).findings rest >>= fun records =>
        pure (Record.of solver.inst heuristic s ⟨0⟩ :: records) := by
  rw [findings, answer, hrun]

/-- Every record shows a cover, and there is one for each call. -/
theorem showsCover_of_findings {calls : List (String × Call)} {solver : Solver}
    {records : List Record} (h : solver.findings calls = .ok records) :
    records.map (·.heuristic) = calls.map (·.1) ∧
      ∀ r ∈ records, r.ShowsCover solver.inst := by
  induction calls generalizing solver records with
  | nil =>
      cases h
      exact ⟨rfl, fun r hr => absurd hr List.not_mem_nil⟩
  | cons p rest ih =>
      obtain ⟨heuristic, call⟩ := p
      cases hrun : ((call.job solver.inst solver.settings).run fun _ => 0).run solver.session with
      | error fault session =>
          rw [findings_of_error hrun] at h
          cases h
      | ok s session =>
          rw [findings_of_ok hrun] at h
          obtain ⟨more, hrest, h⟩ := bind_eq_ok_iff.mp h
          cases h
          obtain ⟨hnames, hshows⟩ := ih hrest
          have hcover : s.IsCover solver.inst :=
            (call.ends_job solver.settings fun _ => 0).of_run hrun
          constructor
          · rw [List.map_cons, hnames]
            rfl
          · intro r hr
            rcases List.mem_cons.mp hr with rfl | hr
            · exact Record.showsCover_of hcover heuristic ⟨0⟩
            · exact hshows r hr

/-- Calls of which none is refused all have a record. -/
theorem exists_findings {calls : List (String × Call)} (solver : Solver)
    (hcost : solver.inst.totalCost < 2 ^ 63 - 1)
    (hcalls : ∀ p ∈ calls, p.2.Fits solver.inst ∧ ¬ p.2.Refused solver.inst) :
    ∃ records, solver.findings calls = .ok records := by
  induction calls generalizing solver with
  | nil => exact ⟨[], rfl⟩
  | cons p rest ih =>
      obtain ⟨heuristic, call⟩ := p
      obtain ⟨hfits, hvalid⟩ := hcalls (heuristic, call) List.mem_cons_self
      obtain ⟨s, session, hrun, _⟩ := (Call.ends_job_total (σ := solver.session) solver.coverable
        hcost solver.settings hfits hvalid fun _ => 0).exists_run
      obtain ⟨records, hrest⟩ := ih { solver with session } hcost
        fun p hp => hcalls p (List.mem_cons_of_mem _ hp)
      exact ⟨_, by rw [findings_of_ok hrun, hrest]; rfl⟩

end Solver

/-! ## One file -/

namespace Experiment

/-- The records of an experiment for one file, when no time passes. -/
def findings (e : Experiment) (seed : Nat) (path : String) (content : FileContent) :
    Except Fault (List Record) := do
  let inst ← Instance.ofFile path content
  let solver ← Solver.start inst e.settings (.seeded seed.toUInt64)
  solver.findings e.calls

theorem findings_of_error {e : Experiment} {seed : Nat} {path : String} {content : FileContent}
    {fault : Fault} (h : Instance.ofFile path content = .error fault) :
    e.findings seed path content = .error fault := by
  rw [findings, h]
  rfl

theorem findings_of_ok {e : Experiment} {seed : Nat} {path : String} {content : FileContent}
    {inst : Instance} (h : Instance.ofFile path content = .ok inst) :
    e.findings seed path content =
      Solver.start inst e.settings (.seeded seed.toUInt64) >>= fun solver =>
        solver.findings e.calls := by
  rw [findings, h]
  rfl

/-- The records are about one instance, the one that is read from the file. -/
theorem showsCover_of_findings {e : Experiment} {seed : Nat} {path : String}
    {content : FileContent} {records : List Record}
    (h : e.findings seed path content = .ok records) :
    ∃ inst, Instance.ofFile path content = .ok inst ∧
      records.map (·.heuristic) = e.calls.map (·.1) ∧ ∀ r ∈ records, r.ShowsCover inst := by
  obtain ⟨inst, hinst, h⟩ := bind_eq_ok_iff.mp h
  obtain ⟨solver, hsolver, h⟩ := bind_eq_ok_iff.mp h
  obtain ⟨hnames, hshows⟩ := Solver.showsCover_of_findings h
  rw [Solver.inst_start hsolver] at hshows
  exact ⟨inst, hinst, hnames, hshows⟩

/-- An experiment of which no call is refused finds something for a coverable instance. -/
theorem exists_findings {e : Experiment} {seed : Nat} {path : String} {content : FileContent}
    (hinst : Instance.ofFile path content = .ok inst)
    (hcoverable : inst.requireCoverable = .ok ()) (hcost : inst.totalCost < 2 ^ 63 - 1)
    (hcalls : ∀ p ∈ e.calls, p.2.Fits inst ∧ ¬ p.2.Refused inst) :
    ∃ records, e.findings seed path content = .ok records := by
  rw [findings_of_ok hinst, Solver.start_eq_ok hcoverable]
  exact Solver.exists_findings ⟨inst, e.settings, ⟨.seeded seed.toUInt64, []⟩, hcoverable⟩ hcost
    hcalls

end Experiment

end SetCover
