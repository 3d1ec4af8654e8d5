import SetCover.CommandLine.Table
import SetCover.Proofs.Solver.Findings

/-!
# Machines

A machine is a host that keeps what it is asked to keep: what is read comes from its disk, only
writing changes the disk, and a heuristic runs as its job does against some clock. Time may pass and
lines may be printed as the machine likes.

* `Machine`: such hosts.
* `tableMachine`, `nameMachine`: tables of files are one, and so are files without directories.
* `run_bind_ok`, `run_lift_bind`: the steps of a run on a machine.
-/

namespace SetCover.CommandLine

/-- A host whose surroundings are of the type `World`, and the laws that it keeps. -/
structure Machine (World Disk : Type) where
  host : Host (StateM World)
  /-- The files. -/
  disk : World → Disk
  /-- What a path leads to. -/
  look : Disk → String → FileContent
  /-- The files after a text is put into one of them. -/
  put : Disk → String → String → Except FileTrouble Disk
  /-- What the clock shows when a job runs. -/
  clock : Job → Session → World → Clock
  /-- How long a job takes. -/
  span : Job → Session → World → Span
  read_eq : ∀ path w, ∃ w', host.read path w = (look (disk w) path, w') ∧ disk w' = disk w
  say_eq : ∀ line w, disk (host.say line w).2 = disk w
  write_of_ok : ∀ path text w d, put (disk w) path text = .ok d →
    ∃ w', host.write path text w = (.ok (), w') ∧ disk w' = d
  write_of_error : ∀ path text w why, put (disk w) path text = .error why →
    ∃ w', host.write path text w = (.error why, w') ∧ disk w' = disk w
  perform_of_ok : ∀ job σ w s σ', (job.run (clock job σ w)).run σ = .ok s σ' →
    ∃ w', host.perform job σ w = ((.ok (s, span job σ w), σ'), w') ∧ disk w' = disk w
  perform_of_error : ∀ job σ w fault σ', (job.run (clock job σ w)).run σ = .error fault σ' →
    ∃ w', host.perform job σ w = ((.error fault, σ'), w') ∧ disk w' = disk w

theorem tableHost_write (seed : UInt64) (path text : String) (w : Desk) :
    (tableHost seed).write path text w =
      match w.files.write path text.toUTF8 with
      | .ok files => (Except.ok (), { w with files })
      | .error why => (Except.error why, w) := by
  have hwrite : (tableHost seed).write path text w =
      (match w.files.write path text.toUTF8 with
        | .ok files => do
            modify fun desk : Desk => { desk with files }
            return Except.ok ()
        | .error why => return Except.error why : StateM Desk (Except FileTrouble Unit)) w := rfl
  rw [hwrite]
  cases w.files.write path text.toUTF8 with
  | ok files => rfl
  | error why => rfl

/-- A table of files, on which no time passes. -/
def tableMachine (seed : UInt64) : Machine Desk FileTable where
  host := tableHost seed
  disk := Desk.files
  look := FileTable.read
  put := fun files path text => files.write path text.toUTF8
  clock := fun _ _ _ _ => 0
  span := fun _ _ _ => ⟨0⟩
  read_eq := fun _ w => ⟨w, rfl, rfl⟩
  say_eq := fun _ _ => rfl
  write_of_ok := by
    intro path text w d h
    exact ⟨{ w with files := d }, by rw [tableHost_write, h], rfl⟩
  write_of_error := by
    intro path text w why h
    exact ⟨w, by rw [tableHost_write, h], rfl⟩
  perform_of_ok := by
    intro job σ w s σ' hrun
    refine ⟨w, ?_, rfl⟩
    simp [tableHost, hrun, pure, StateT.pure]
  perform_of_error := by
    intro job σ w fault σ' hrun
    refine ⟨w, ?_, rfl⟩
    simp [tableHost, hrun, pure, StateT.pure]

/-- Files that are told apart by their whole paths and can all be written, with a clock for all
jobs. -/
def nameMachine (clock : Clock) : Machine (String → FileContent) (String → FileContent) where
  host :=
    { read := fun path files => (files path, files)
      write := fun path text files =>
        (.ok (), fun name => if name = path then .ok text.toUTF8 else files name)
      say := fun _ => pure ()
      freshSeed := pure 0
      perform := fun job session =>
        match (job.run clock).run session with
        | .ok s session => pure (.ok (s, ⟨0⟩), session)
        | .error fault session => pure (.error fault, session) }
  disk := id
  look := id
  put := fun files path text =>
    .ok fun name => if name = path then .ok text.toUTF8 else files name
  clock := fun _ _ _ => clock
  span := fun _ _ _ => ⟨0⟩
  read_eq := fun _ w => ⟨w, rfl, rfl⟩
  say_eq := fun _ _ => rfl
  write_of_ok := by
    intro path text w d h
    cases h
    exact ⟨_, rfl, rfl⟩
  write_of_error := by
    intro path text w why h
    cases h
  perform_of_ok := by
    intro job σ w s σ' hrun
    refine ⟨w, ?_, rfl⟩
    simp [hrun, pure, StateT.pure]
  perform_of_error := by
    intro job σ w fault σ' hrun
    refine ⟨w, ?_, rfl⟩
    simp [hrun, pure, StateT.pure]

/-! ## Steps -/

variable {World : Type} {α β : Type} {w w' : World}

theorem run_bind_ok {x : ExceptT Fault (StateM World) α} {f : α → ExceptT Fault (StateM World) β}
    {a : α} (h : x.run w = (.ok a, w')) : (x >>= f).run w = (f a).run w' := by
  rw [ExceptT.run_bind]
  show StateT.bind x.run _ w = _
  rw [StateT.bind, h]
  rfl

theorem run_bind_error {x : ExceptT Fault (StateM World) α}
    {f : α → ExceptT Fault (StateM World) β} {fault : Fault} (h : x.run w = (.error fault, w')) :
    (x >>= f).run w = (.error fault, w') := by
  rw [ExceptT.run_bind]
  show StateT.bind x.run _ w = _
  rw [StateT.bind, h]
  rfl

theorem run_lift_bind {y : StateM World α} {f : α → ExceptT Fault (StateM World) β} {a : α}
    (h : y w = (a, w')) : ((liftM y : ExceptT Fault (StateM World) α) >>= f).run w =
      (f a).run w' := by
  apply run_bind_ok
  show StateT.map Except.ok y w = _
  rw [StateT.map, h]
  rfl

theorem run_orFail_ok {x : Except Fault α} {f : α → ExceptT Fault (StateM World) β} {a : α}
    (h : x = .ok a) : (orFail x >>= f).run w = (f a).run w := by
  subst h
  exact run_bind_ok rfl

theorem run_orFail_error {x : Except Fault α} {f : α → ExceptT Fault (StateM World) β}
    {fault : Fault} (h : x = .error fault) : (orFail x >>= f).run w = (.error fault, w) := by
  subst h
  exact run_bind_error rfl

end SetCover.CommandLine
