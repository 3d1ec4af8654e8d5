import SetCover.Proofs.CommandLine.Machine
import SetCover.Proofs.Heuristic.Unhurried

/-!
# Runs of the program compose

Every instance gets a solver of its own, seeded anew, so what a run finds for a file does not depend
on the files before it. Apart from the times that it records, a run over a list of files finds what
an experiment finds for each of them, in order, up to the first fault. The report is written at the
end, so a run that fails leaves the files as they are.

* `Machine.Yields`, `Machine.Yields.bind`, `yields_evaluateFiles`: what the parts of a run find.
* `Machine.Reports`, `run_eq_ok_iff`, `run_eq_error_iff`: what a run reports or fails with.
* `execute_append`: runs over two lists of files and over both.
-/

namespace SetCover.CommandLine

/-- A list that maps to a list of blocks consists of blocks that map to those. -/
theorem exists_flatten_of_map_eq {α β : Type} {g : α → β} {blocks : List (List β)} {l : List α}
    (h : l.map g = blocks.flatten) :
    ∃ parts : List (List α), l = parts.flatten ∧ parts.map (List.map g) = blocks := by
  induction blocks generalizing l with
  | nil => exact ⟨[], List.map_eq_nil_iff.mp h, rfl⟩
  | cons block blocks ih =>
      rw [List.flatten_cons] at h
      obtain ⟨first, rest, rfl, hfirst, hrest⟩ := List.map_eq_append_iff.mp h
      obtain ⟨parts, rfl, hparts⟩ := ih hrest
      exact ⟨first :: parts, rfl, by rw [List.map_cons, hfirst, hparts]⟩

/-- The block of the first file before the blocks of the rest. -/
theorem map_bind_append {ε α : Type} (front : List α) (x : Except ε (List α))
    (y : Except ε (List (List α))) :
    ((x.map (front ++ ·)) >>= fun front => y.map fun blocks => front ++ blocks.flatten) =
      (x >>= fun block => y >>= fun blocks => pure (block :: blocks)).map fun blocks =>
        front ++ blocks.flatten := by
  cases x with
  | error e => rfl
  | ok block =>
      cases y with
      | error e => rfl
      | ok blocks => exact congrArg Except.ok (List.append_assoc front block blocks.flatten)

/-! ## What the parts of a run find -/

/-- The records of a run, which it holds last one first, in order and without their times. -/
def shown (records : List Record) : List Record := records.reverse.map Record.untimed

theorem shown_cons (r : Record) (records : List Record) :
    shown (r :: records) = shown records ++ [r.untimed] := by
  rw [shown, List.reverse_cons, List.map_append]
  rfl

variable {World Disk : Type} {M : Machine World Disk} {w : World} {e : Experiment} {seed : Nat}

/-- A part of a run leaves the disk as it is and finds these records or this fault. -/
def Machine.Yields (M : Machine World Disk) (x : ExceptT Fault (StateM World) (List Record))
    (w : World) (found : Except Fault (List Record)) : Prop :=
  ∃ result w', x.run w = (result, w') ∧ M.disk w' = M.disk w ∧ result.map shown = found

section Yields

variable {x y : ExceptT Fault (StateM World) (List Record)} {w₁ : World}
  {found : Except Fault (List Record)}

theorem Machine.yields_error {fault : Fault} (hrun : x.run w = (.error fault, w₁))
    (hdisk : M.disk w₁ = M.disk w) : M.Yields x w (.error fault) :=
  ⟨.error fault, w₁, hrun, hdisk, rfl⟩

/-- Steps before a part that only pass time or print. -/
theorem Machine.Yields.of_run_eq (hy : M.Yields y w₁ found) (hrun : x.run w = y.run w₁)
    (hdisk : M.disk w₁ = M.disk w) : M.Yields x w found := by
  obtain ⟨result, w', hresult, hdisk', hshown⟩ := hy
  exact ⟨result, w', hrun.trans hresult, hdisk'.trans hdisk, hshown⟩

/-- One part after another, where the second may look at the records of the first, but what it finds
does not depend on their times. -/
theorem Machine.Yields.bind {f : List Record → ExceptT Fault (StateM World) (List Record)}
    {more : List Record → Except Fault (List Record)} (hx : M.Yields x w found)
    (hf : ∀ records w', M.disk w' = M.disk w → M.Yields (f records) w' (more (shown records))) :
    M.Yields (x >>= f) w (found >>= more) := by
  obtain ⟨result, w', hrun, hdisk, hshown⟩ := hx
  subst hshown
  cases result with
  | error fault => exact Machine.yields_error (run_bind_error hrun) hdisk
  | ok records => exact (hf records w' hdisk).of_run_eq (run_bind_ok hrun) hdisk

end Yields

theorem yields_performAll {calls : List (String × Call)} (solver : Solver)
    (htime : ∀ p ∈ calls, ∀ σ w, p.2.Unhurried solver.settings
      (M.clock (p.2.job solver.inst solver.settings) σ w)) (records : List Record) :
    M.Yields (performAll M.host solver.inst
        (calls.map fun p => (p.1, p.2.job solver.inst solver.settings)) solver.session records) w
      ((solver.findings calls).map (shown records ++ ·)) := by
  induction calls generalizing solver records w with
  | nil =>
      refine ⟨.ok records, w, rfl, rfl, ?_⟩
      show Except.ok (shown records) = Except.ok (shown records ++ [])
      rw [List.append_nil]
  | cons p rest ih =>
      obtain ⟨heuristic, call⟩ := p
      have htimed : ((call.job solver.inst solver.settings).run (M.clock
          (call.job solver.inst solver.settings) solver.session w)).run solver.session =
            ((call.job solver.inst solver.settings).run fun _ => 0).run solver.session :=
        Call.run_of_unhurried (htime _ List.mem_cons_self solver.session w)
      rw [List.map_cons, performAll]
      cases hrun : ((call.job solver.inst solver.settings).run fun _ => 0).run solver.session with
      | error fault session =>
          obtain ⟨w', hperform, hdisk⟩ := M.perform_of_error _ _ w _ _ (htimed.trans hrun)
          rw [Solver.findings_of_error hrun]
          exact Machine.yields_error ((run_lift_bind hperform).trans (run_orFail_error rfl)) hdisk
      | ok s session =>
          obtain ⟨w₁, hperform, hdisk⟩ := M.perform_of_ok _ _ w _ _ (htimed.trans hrun)
          let record := Record.of solver.inst heuristic s
            (M.span (call.job solver.inst solver.settings) solver.session w)
          have hrest := ih { solver with session } (w := (M.host.say record.line w₁).2)
            (fun p hp => htime p (List.mem_cons_of_mem _ hp)) (record :: records)
          have hshown : (solver.findings ((heuristic, call) :: rest)).map (shown records ++ ·) =
              (({ solver with session } : Solver).findings rest).map
                (shown (record :: records) ++ ·) := by
            rw [Solver.findings_of_ok hrun, shown_cons]
            cases ({ solver with session } : Solver).findings rest with
            | error fault => rfl
            | ok more => exact congrArg Except.ok (List.append_assoc (shown records) [_] more).symm
          rw [hshown]
          apply hrest.of_run_eq _ ((M.say_eq record.line w₁).trans hdisk)
          exact (run_lift_bind hperform).trans ((run_orFail_ok rfl).trans (run_lift_bind rfl))

theorem yields_evaluate {inst : Instance} (hseed : e.settings.seed = some seed)
    (htime : ∀ p ∈ e.calls, ∀ σ w, p.2.Unhurried e.settings
      (M.clock (p.2.job inst e.settings) σ w)) (records : List Record) :
    M.Yields (evaluate M.host e inst records) w
      ((Solver.start inst e.settings (.seeded seed.toUInt64) >>= fun solver =>
        solver.findings e.calls).map (shown records ++ ·)) := by
  unfold evaluate
  cases hcheck : inst.requireCoverable with
  | error fault =>
      rw [Solver.start_eq_error hcheck]
      exact Machine.yields_error (run_orFail_error rfl) rfl
  | ok _ =>
      rw [Solver.start_eq_ok hcheck]
      apply (yields_performAll (w := w) ⟨inst, e.settings, ⟨.seeded seed.toUInt64, []⟩, hcheck⟩
        htime records).of_run_eq _ rfl
      rw [hseed]
      exact run_orFail_ok rfl

/-- What a run over some files finds is what the experiment finds for each. -/
theorem yields_evaluateFiles {paths : List String} {d : Disk} (hdisk : M.disk w = d)
    (hseed : e.settings.seed = some seed)
    (htime : ∀ path ∈ paths, ∀ inst, Instance.ofFile path (M.look d path) = .ok inst →
      ∀ p ∈ e.calls, ∀ σ w, p.2.Unhurried e.settings (M.clock (p.2.job inst e.settings) σ w))
    (records : List Record) :
    M.Yields (evaluateFiles M.host e paths records) w
      ((paths.mapM fun path => e.findings seed path (M.look d path)).map fun blocks =>
        shown records ++ blocks.flatten) := by
  induction paths generalizing records w with
  | nil =>
      refine ⟨.ok records, w, rfl, rfl, ?_⟩
      exact congrArg Except.ok (List.append_nil (shown records)).symm
  | cons path rest ih =>
      obtain ⟨w₁, hread, hdisk₁⟩ := M.read_eq path w
      rw [hdisk] at hread
      rw [evaluateFiles, List.mapM_cons]
      cases hinst : Instance.ofFile path (M.look d path) with
      | error fault =>
          rw [Experiment.findings_of_error hinst]
          exact Machine.yields_error ((run_lift_bind hread).trans (run_orFail_error hinst)) hdisk₁
      | ok inst =>
          let line := "Loaded problem: " ++ inst.name ++ " " ++
            s!"with {inst.elementCount} elements and {inst.subsetCount} subsets"
          have hsay : M.disk (M.host.say line w₁).2 = M.disk w := (M.say_eq line w₁).trans hdisk₁
          have hfile := yields_evaluate (M := M) (w := (M.host.say line w₁).2) hseed
            (htime path List.mem_cons_self inst hinst) records
          rw [← Experiment.findings_of_ok hinst] at hfile
          have hboth : M.Yields (evaluate M.host e inst records >>= evaluateFiles M.host e rest)
              (M.host.say line w₁).2
              ((e.findings seed path (M.look d path)).map (shown records ++ ·) >>= fun front =>
                (rest.mapM fun path => e.findings seed path (M.look d path)).map fun blocks =>
                  front ++ blocks.flatten) :=
            hfile.bind fun records' w' hw' => ih (hw'.trans (hsay.trans hdisk))
              (fun path hpath => htime path (List.mem_cons_of_mem _ hpath)) records'
          rw [map_bind_append] at hboth
          apply hboth.of_run_eq _ hsay
          exact (run_lift_bind hread).trans ((run_orFail_ok hinst).trans (run_lift_bind rfl))

/-! ## Whole runs -/

/-- The experiment with the seed and the budget of time that the options put in place of its own. -/
def Options.override (o : Options) (experiment : Experiment) : Experiment :=
  let experiment :=
    match o.seed with
    | some seed => experiment.withSeed seed
    | none => experiment
  match o.timeLimit with
  | some budget => experiment.withTimeLimit budget
  | none => experiment

/-- The experiment that the options ask for, when the files are these. -/
def Options.experiment (o : Options) (look : String → FileContent) : Except Fault Experiment :=
  match o.config with
  | some path => do
      let text ← textOf (look path)
      let experiment ← Experiment.readJson text
      pure (o.override experiment)
  | none => pure (o.override .standard)

theorem Options.experiment_of_config {o : Options} {path : String} (h : o.config = some path)
    (look : String → FileContent) :
    o.experiment look = textOf (look path) >>= fun text =>
      Experiment.readJson text >>= fun experiment => pure (o.override experiment) := by
  rw [Options.experiment, h]

theorem run_experimentOf {o : Options} (h : o.experiment (M.look (M.disk w)) = .ok e) :
    ∃ w', (experimentOf M.host o).run w = (.ok e, w') ∧ M.disk w' = M.disk w := by
  unfold experimentOf
  cases hconfig : o.config with
  | none =>
      rw [Options.experiment, hconfig] at h
      cases h
      exact ⟨w, rfl, rfl⟩
  | some path =>
      rw [Options.experiment_of_config hconfig] at h
      obtain ⟨w₁, hread, hdisk⟩ := M.read_eq path w
      obtain ⟨text, htext, h⟩ := bind_eq_ok_iff.mp h
      obtain ⟨experiment, hexperiment, h⟩ := bind_eq_ok_iff.mp h
      cases h
      refine ⟨w₁, ?_, hdisk⟩
      exact (run_lift_bind hread).trans ((run_orFail_ok htext).trans (run_orFail_ok hexperiment))

/-- The result of a run, and the surroundings after it. -/
def Machine.run (M : Machine World Disk) (o : Options) (w : World) : Except Fault Unit × World :=
  (execute M.host o).run w

/-- A run succeeds and leaves a report of these records. -/
def Machine.Reports (M : Machine World Disk) (o : Options) (w : World) (records : List Record) :
    Prop :=
  (M.run o w).1 = .ok () ∧ M.put (M.disk w) (o.output.getD defaultOutput) (reportText records) =
    .ok (M.disk (M.run o w).2)

/-- No clock cuts a call short that the experiment makes for one of the files. -/
def Machine.Unhurried (M : Machine World Disk) (e : Experiment) (d : Disk) (paths : List String) :
    Prop :=
  ∀ path ∈ paths, ∀ inst, Instance.ofFile path (M.look d path) = .ok inst →
    ∀ p ∈ e.calls, ∀ σ w, p.2.Unhurried e.settings (M.clock (p.2.job inst e.settings) σ w)

variable {d : Disk} {o : Options}

/-- A run that finds a fault for some file fails with it and leaves the files as they are. -/
theorem run_execute_of_error (hdisk : M.disk w = d) (hexperiment : o.experiment (M.look d) = .ok e)
    (hseed : e.settings.seed = some seed) (htime : M.Unhurried e d o.instances) {fault : Fault}
    (hfound : (o.instances.mapM fun path => e.findings seed path (M.look d path)) = .error fault) :
    (M.run o w).1 = .error fault ∧ M.disk (M.run o w).2 = d := by
  rw [← hdisk] at hexperiment
  obtain ⟨w₁, hstart, hdisk₁⟩ := run_experimentOf hexperiment
  obtain ⟨result, w₂, hrun, hdisk₂, hshown⟩ :=
    yields_evaluateFiles (hdisk₁.trans hdisk) hseed htime []
  rw [hfound] at hshown
  cases result with
  | ok records => cases hshown
  | error fault' =>
      cases hshown
      have hall : M.run o w = (.error fault, w₂) :=
        (run_bind_ok hstart).trans (run_bind_error hrun)
      rw [hall]
      exact ⟨rfl, hdisk₂.trans (hdisk₁.trans hdisk)⟩

/-- A run that finds no fault reports what it finds. -/
theorem run_execute_of_ok (hdisk : M.disk w = d) (hexperiment : o.experiment (M.look d) = .ok e)
    (hseed : e.settings.seed = some seed) (htime : M.Unhurried e d o.instances)
    (hput : ∀ text, ∃ d', M.put d (o.output.getD defaultOutput) text = .ok d')
    {blocks : List (List Record)}
    (hfound : (o.instances.mapM fun path => e.findings seed path (M.look d path)) = .ok blocks) :
    ∃ records, M.Reports o w records ∧ records.map Record.untimed = blocks.flatten := by
  rw [← hdisk] at hexperiment
  obtain ⟨w₁, hstart, hdisk₁⟩ := run_experimentOf hexperiment
  obtain ⟨result, w₂, hrun, hdisk₂, hshown⟩ :=
    yields_evaluateFiles (hdisk₁.trans hdisk) hseed htime []
  rw [hfound] at hshown
  cases result with
  | error fault => cases hshown
  | ok records =>
      have hshown : shown records = blocks.flatten := Except.ok.inj hshown
      refine ⟨records.reverse, ?_, hshown⟩
      obtain ⟨d', hwritten⟩ := hput (reportText records.reverse)
      have hdisk₂ : M.disk w₂ = d := hdisk₂.trans (hdisk₁.trans hdisk)
      obtain ⟨w₃, hwrite, hdisk₃⟩ := M.write_of_ok _ _ w₂ d' (hdisk₂.symm ▸ hwritten)
      have hall : M.run o w = (.ok (),
          (M.host.say ("Report written to: " ++ o.output.getD defaultOutput) w₃).2) :=
        (run_bind_ok hstart).trans ((run_bind_ok hrun).trans (run_lift_bind hwrite))
      constructor
      · rw [hall]
      · rw [hall, hdisk, hwritten, M.say_eq, hdisk₃]

/-- Records show covers whether their times are kept or not. -/
theorem showsCover_of_untimed {path : String} {content : FileContent} {block : List Record}
    (h : e.findings seed path content = .ok (block.map Record.untimed)) :
    ∃ inst, Instance.ofFile path content = .ok inst ∧
      block.map (·.heuristic) = e.calls.map (·.1) ∧ ∀ r ∈ block, r.ShowsCover inst := by
  obtain ⟨inst, hinst, hnames, hshows⟩ := Experiment.showsCover_of_findings h
  refine ⟨inst, hinst, ?_, ?_⟩
  · rw [← hnames, List.map_map]
    rfl
  · intro r hr
    exact Record.showsCover_untimed_iff.mp (hshows r.untimed (List.mem_map.mpr ⟨r, hr, rfl⟩))

theorem run_eq_error_iff (hdisk : M.disk w = d) (hexperiment : o.experiment (M.look d) = .ok e)
    (hseed : e.settings.seed = some seed) (htime : M.Unhurried e d o.instances)
    (hput : ∀ text, ∃ d', M.put d (o.output.getD defaultOutput) text = .ok d') {fault : Fault} :
    (M.run o w).1 = .error fault ↔
      (o.instances.mapM fun path => e.findings seed path (M.look d path)) = .error fault := by
  constructor
  · intro herror
    cases hfound : o.instances.mapM fun path => e.findings seed path (M.look d path) with
    | error fault' =>
        rw [(run_execute_of_error hdisk hexperiment hseed htime hfound).1] at herror
        cases herror
        rfl
    | ok blocks =>
        obtain ⟨records, ⟨hok, _⟩, _⟩ :=
          run_execute_of_ok hdisk hexperiment hseed htime hput hfound
        rw [hok] at herror
        cases herror
  · intro hfound
    exact (run_execute_of_error hdisk hexperiment hseed htime hfound).1

theorem run_eq_ok_iff (hdisk : M.disk w = d) (hexperiment : o.experiment (M.look d) = .ok e)
    (hseed : e.settings.seed = some seed) (htime : M.Unhurried e d o.instances)
    (hput : ∀ text, ∃ d', M.put d (o.output.getD defaultOutput) text = .ok d') :
    (M.run o w).1 = .ok () ↔
      ∃ blocks, (o.instances.mapM fun path => e.findings seed path (M.look d path)) =
        .ok blocks := by
  constructor
  · intro hok
    cases hfound : o.instances.mapM fun path => e.findings seed path (M.look d path) with
    | error fault =>
        rw [(run_execute_of_error hdisk hexperiment hseed htime hfound).1] at hok
        cases hok
    | ok blocks => exact ⟨blocks, rfl⟩
  · intro ⟨blocks, hfound⟩
    obtain ⟨records, ⟨hok, _⟩, _⟩ := run_execute_of_ok hdisk hexperiment hseed htime hput hfound
    exact hok

/-- **Runs compose.** Three runs of the program with the same options start with the same files, one
over `xs`, one over `ys` and one over both. The experiment has a seed, no clock cuts its calls
short, and the report can be written.

The run over both succeeds if and only if the other two do, and apart from times its report is that
of the first followed by that of the second. It has a block of records for each file, one for each
call of the experiment, and each of them lists a cover of the instance in that file. The run over
both fails with a fault if and only if that is the fault of the first file, in order, for which the
experiment finds one, and then the files are as they were. -/
theorem execute_append (M : Machine World Disk) (o : Options) (xs ys : List String) (d : Disk)
    (e : Experiment) (seed : Nat) (hexperiment : o.experiment (M.look d) = .ok e)
    (hseed : e.settings.seed = some seed) (htime : M.Unhurried e d (xs ++ ys))
    (hput : ∀ text, ∃ d', M.put d (o.output.getD defaultOutput) text = .ok d')
    (w wx wy : World) (hw : M.disk w = d) (hwx : M.disk wx = d) (hwy : M.disk wy = d) :
    ((M.run { o with instances := xs ++ ys } w).1 = .ok () ↔
      (M.run { o with instances := xs } wx).1 = .ok () ∧
        (M.run { o with instances := ys } wy).1 = .ok ()) ∧
    ((M.run { o with instances := xs ++ ys } w).1 = .ok () →
      ∃ records recordsX recordsY, M.Reports { o with instances := xs ++ ys } w records ∧
        M.Reports { o with instances := xs } wx recordsX ∧
        M.Reports { o with instances := ys } wy recordsY ∧
        records.map Record.untimed = (recordsX ++ recordsY).map Record.untimed ∧
        ∃ blocks : List (List Record), records = blocks.flatten ∧
          List.Forall₂ (fun path block => ∃ inst, Instance.ofFile path (M.look d path) = .ok inst ∧
            block.map (·.heuristic) = e.calls.map (·.1) ∧ ∀ r ∈ block, r.ShowsCover inst)
            (xs ++ ys) blocks) ∧
    ∀ fault, ((M.run { o with instances := xs ++ ys } w).1 = .error fault ↔
        ∃ before path after, xs ++ ys = before ++ path :: after ∧
          (∀ p ∈ before, ∃ found, e.findings seed p (M.look d p) = .ok found) ∧
          e.findings seed path (M.look d path) = .error fault) ∧
      ((M.run { o with instances := xs ++ ys } w).1 = .error fault →
        M.disk (M.run { o with instances := xs ++ ys } w).2 = d) := by
  have htimeX : M.Unhurried e d xs := fun path hpath =>
    htime path (List.mem_append_left ys hpath)
  have htimeY : M.Unhurried e d ys := fun path hpath =>
    htime path (List.mem_append_right xs hpath)
  have hok := run_eq_ok_iff (o := { o with instances := xs ++ ys }) hw hexperiment hseed htime hput
  have hokX := run_eq_ok_iff (o := { o with instances := xs }) hwx hexperiment hseed htimeX hput
  have hokY := run_eq_ok_iff (o := { o with instances := ys }) hwy hexperiment hseed htimeY hput
  refine ⟨?_, ?_, ?_⟩
  · rw [hok, hokX, hokY]
    simp only [mapM_append_eq_ok_iff]
    constructor
    · intro ⟨_, front, back, hx, hy, _⟩
      exact ⟨⟨front, hx⟩, back, hy⟩
    · intro ⟨⟨front, hx⟩, back, hy⟩
      exact ⟨_, front, back, hx, hy, rfl⟩
  · intro hsuccess
    obtain ⟨blocks, hfound⟩ := hok.mp hsuccess
    obtain ⟨front, back, hfront, hback, rfl⟩ := mapM_append_eq_ok_iff.mp hfound
    obtain ⟨records, hreports, hrecords⟩ := run_execute_of_ok
      (o := { o with instances := xs ++ ys }) hw hexperiment hseed htime hput hfound
    obtain ⟨recordsX, hreportsX, hrecordsX⟩ := run_execute_of_ok
      (o := { o with instances := xs }) hwx hexperiment hseed htimeX hput hfront
    obtain ⟨recordsY, hreportsY, hrecordsY⟩ := run_execute_of_ok
      (o := { o with instances := ys }) hwy hexperiment hseed htimeY hput hback
    refine ⟨records, recordsX, recordsY, hreports, hreportsX, hreportsY, ?_, ?_⟩
    · rw [hrecords, List.map_append, hrecordsX, hrecordsY, List.flatten_append]
    · obtain ⟨parts, hparts, hblocks⟩ := exists_flatten_of_map_eq hrecords
      have hall := forall₂_of_mapM hfound
      rw [← hblocks, List.forall₂_map_right_iff] at hall
      exact ⟨parts, hparts, hall.imp fun _ _ h => showsCover_of_untimed h⟩
  · intro fault
    have herror : (M.run { o with instances := xs ++ ys } w).1 = .error fault ↔ _ :=
      run_eq_error_iff (o := { o with instances := xs ++ ys }) hw hexperiment hseed htime hput
    constructor
    · rw [herror, mapM_eq_error_iff]
    · intro h
      exact (run_execute_of_error (o := { o with instances := xs ++ ys }) hw hexperiment hseed htime
        (herror.mp h)).2

theorem textOf_toUTF8 (text : String) : textOf (.ok text.toUTF8) = .ok text := by
  simp only [textOf, String.toUTF8_eq_toByteArray, String.fromUTF8?, text.isValidUTF8,
    dite_true]
  rfl

theorem ofFile_of_read {path text : String} {inst : Instance}
    (h : Instance.read text = .ok inst) :
    Instance.ofFile path (.ok text.toUTF8) = .ok (inst.named (stem path)) := by
  rw [Instance.ofFile, textOf_toUTF8]
  show (Instance.read text >>= fun inst => pure (inst.named (stem path))) = _
  rw [h]
  rfl

/-- Three constructions and then three rounds of the variable neighbourhood search, for which there
are five milliseconds. -/
def shortPlan : String :=
  "\x7b\"solver\":\x7b\"max_iterations\":3\x7d,\"grasp\":\x7b\"max_sol_count\":3,\"k\":2\x7d," ++
    "\"grasp_with_noise\":null,\"simulated_annealing\":null," ++
    "\"vns\":\x7b\"max_runtime_ms\":5\x7d,\"blga\":null\x7d"

theorem exists_shortPlan : ∃ e, Experiment.readJson shortPlan = .ok e ∧
    e.settings.rounds = some 3 ∧
    e.calls = [("constructive", .cheapestFirst), ("grasp", .multistart 3 2 0),
      ("vns", .neighbourhoods 5)] := by
  have hplan : (Experiment.readJson shortPlan).toOption.any (fun e =>
      decide (e.settings.rounds = some 3 ∧ e.multistart = some ⟨3, 2⟩ ∧ e.noise = none ∧
        e.annealing.isNone ∧ e.neighbourhood = some ⟨5⟩ ∧ e.genetic.isNone)) = true := by
    decide +kernel
  obtain ⟨e, hjson, hparts⟩ := exists_ok_of_any hplan
  obtain ⟨hrounds, hmultistart, hnoise, hannealing, hneighbourhood, hgenetic⟩ :=
    of_decide_eq_true hparts
  refine ⟨e, hjson, hrounds, ?_⟩
  rw [Experiment.calls, hmultistart, hnoise, Option.isNone_iff_eq_none.mp hannealing,
    hneighbourhood, Option.isNone_iff_eq_none.mp hgenetic]
  rfl

/-- An instance of four subsets on two elements. -/
def fourSubsets : String := "2 4 7 3 3 1 3 1 2 3 3 1 2 4"

/-- An instance of three subsets on three elements. -/
def threeSubsets : String := "3 3 2 2 3 2 1 2 2 2 3 1 1"

/-- What the calls of the plan need of an instance can be evaluated. -/
theorem exists_inst_of_text (text : String)
    (h : ((Instance.read text).toOption.any fun inst => inst.requireCoverable.toBool &&
      decide (2 ≤ inst.subsetCount ∧ inst.totalCost < 2 ^ 62)) = true) :
    ∃ inst, Instance.read text = .ok inst ∧ inst.requireCoverable = .ok () ∧
      2 ≤ inst.subsetCount ∧ inst.totalCost < 2 ^ 62 := by
  obtain ⟨inst, hread, hready⟩ := exists_ok_of_any h
  simp only [Bool.and_eq_true, decide_eq_true_eq] at hready
  obtain ⟨hcoverable, hcount, hcost⟩ := hready
  refine ⟨inst, hread, ?_, hcount, hcost⟩
  cases hcheck : inst.requireCoverable with
  | ok _ => rfl
  | error fault =>
      rw [hcheck] at hcoverable
      cases hcoverable

/-- None of the calls of the plan is refused on such an instance. -/
theorem exists_findings_of_shortPlan {path text : String} {inst : Instance}
    (hcalls : e.calls = [("constructive", .cheapestFirst), ("grasp", .multistart 3 2 0),
      ("vns", .neighbourhoods 5)]) (hread : Instance.read text = .ok inst)
    (hcoverable : inst.requireCoverable = .ok ()) (hcount : 2 ≤ inst.subsetCount)
    (hcost : inst.totalCost < 2 ^ 62) :
    ∃ found, e.findings seed path (.ok text.toUTF8) = .ok found := by
  have hcount : 2 ≤ (inst.named (stem path)).subsetCount := hcount
  have hcost : (inst.named (stem path)).totalCost < 2 ^ 62 := hcost
  have hsome : (inst.named (stem path)).subsetCount ≠ 0 := by omega
  refine Experiment.exists_findings (ofFile_of_read hread) hcoverable (by omega) fun p hp => ?_
  rw [hcalls] at hp
  simp only [List.mem_cons, List.not_mem_nil, or_false] at hp
  rcases hp with rfl | rfl | rfl
  · exact ⟨trivial, not_or.mpr ⟨hsome, id⟩⟩
  · refine ⟨Or.inr fun id hid => ?_, not_or.mpr ⟨hsome, ?_⟩⟩
    · have := Instance.costAt_lt hcost id hid
      omega
    · show ¬ (3 = 0 ∨ ¬ (1 ≤ 2 ∧ 2 ≤ (inst.named (stem path)).subsetCount))
      omega
  · exact ⟨trivial, not_or.mpr ⟨hsome, id⟩⟩

/-- A millisecond passes with every round. -/
def slowClock : Clock := fun n => (n + 1) * 1000000

/-- Runs over two files, with an instance of four subsets and one of three. The three rounds are
over before their five milliseconds are. -/
theorem execute_append_of_two_files :
    ∃ (o : Options) (files : String → FileContent) (e : Experiment),
      o.experiment files = .ok e ∧ e.settings.seed = some 7 ∧
      (nameMachine slowClock).Unhurried e files (["a"] ++ ["b"]) ∧
      ((nameMachine slowClock).run { o with instances := ["a"] ++ ["b"] } files).1 = .ok () ∧
      ((nameMachine slowClock).run { o with instances := ["a"] } files).1 = .ok () ∧
      ((nameMachine slowClock).run { o with instances := ["b"] } files).1 = .ok () ∧
      ∃ records, (nameMachine slowClock).Reports { o with instances := ["a"] ++ ["b"] } files
          records ∧
        records.map (·.heuristic) =
          ["constructive", "grasp", "vns", "constructive", "grasp", "vns"] := by
  obtain ⟨e, hjson, hrounds, hcalls⟩ := exists_shortPlan
  obtain ⟨_, hreadA, hcoverableA, hcountA, hcostA⟩ :=
    exists_inst_of_text fourSubsets (by decide +kernel)
  obtain ⟨_, hreadB, hcoverableB, hcountB, hcostB⟩ :=
    exists_inst_of_text threeSubsets (by decide +kernel)
  let o : Options := { config := some "plan", seed := some 7 }
  let files : String → FileContent := fun path =>
    if path = "plan" then .ok shortPlan.toUTF8
    else if path = "a" then .ok fourSubsets.toUTF8
    else .ok threeSubsets.toUTF8
  have hexperiment : o.experiment files = .ok (o.override e) := by
    have htext : textOf (files "plan") = .ok shortPlan := textOf_toUTF8 shortPlan
    rw [Options.experiment_of_config (show o.config = some "plan" from rfl), htext]
    show (Experiment.readJson shortPlan >>= fun experiment => pure (o.override experiment)) = _
    rw [hjson]
    rfl
  have hcalls : (o.override e).calls = [("constructive", .cheapestFirst),
      ("grasp", .multistart 3 2 0), ("vns", .neighbourhoods 5)] := hcalls
  have hrounds : (o.override e).settings.rounds = some 3 := hrounds
  have htime : (nameMachine slowClock).Unhurried (o.override e) files (["a"] ++ ["b"]) := by
    intro path _ inst _ p hp σ w
    rw [hcalls] at hp
    simp only [List.mem_cons, List.not_mem_nil, or_false] at hp
    rcases hp with rfl | rfl | rfl
    · trivial
    · trivial
    · show slowClock.Suffices 5 ((o.override e).settings.rounds.getD roundLimit) fun _ => True
      rw [hrounds]
      refine Or.inr fun n hn _ => ?_
      show (n + 1) * 1000000 < 5 * 1000000
      have hn : n + 1 < 3 := hn
      omega
  have hfound : ∀ path ∈ ["a"] ++ ["b"],
      ∃ found, (o.override e).findings 7 path (files path) = .ok found := by
    intro path hpath
    simp only [List.cons_append, List.nil_append, List.mem_cons, List.not_mem_nil,
      or_false] at hpath
    rcases hpath with rfl | rfl
    · exact exists_findings_of_shortPlan hcalls hreadA hcoverableA hcountA hcostA
    · exact exists_findings_of_shortPlan hcalls hreadB hcoverableB hcountB hcostB
  have hput : ∀ text, ∃ d', (nameMachine slowClock).put files (o.output.getD defaultOutput) text =
      .ok d' := fun text => ⟨_, rfl⟩
  have hdisk : (nameMachine slowClock).disk files = files := rfl
  have hseed : (o.override e).settings.seed = some 7 := rfl
  have hboth : ((nameMachine slowClock).run { o with instances := ["a"] ++ ["b"] } files).1 =
      .ok () :=
    (run_eq_ok_iff (o := { o with instances := ["a"] ++ ["b"] }) hdisk hexperiment hseed htime
      hput).mpr (exists_mapM hfound)
  obtain ⟨hiff, hreports, -⟩ := execute_append (nameMachine slowClock) o ["a"] ["b"] files
    (o.override e) 7 hexperiment hseed htime hput files files files hdisk hdisk hdisk
  obtain ⟨hfirst, hsecond⟩ := hiff.mp hboth
  refine ⟨o, files, o.override e, hexperiment, rfl, htime, hboth, hfirst, hsecond, ?_⟩
  obtain ⟨records, _, _, hrecords, -, -, -, blocks, rfl, hblocks⟩ := hreports hboth
  simp only [List.cons_append, List.nil_append, List.forall₂_cons_left_iff,
    List.forall₂_nil_left_iff] at hblocks
  obtain ⟨blockA, _, ⟨_, -, hnamesA, -⟩, ⟨blockB, _, ⟨_, -, hnamesB, -⟩, rfl, rfl⟩, rfl⟩ :=
    hblocks
  refine ⟨_, hrecords, ?_⟩
  rw [List.flatten_cons, List.flatten_cons, List.flatten_nil, List.append_nil, List.map_append,
    hnamesA, hnamesB, hcalls]
  rfl

end SetCover.CommandLine
