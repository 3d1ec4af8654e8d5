import SetCover.Proofs.Greedy.Entries
import SetCover.Proofs.Heuristic.Schedule
import SetCover.Proofs.Heuristic.Unhurried
import SetCover.Proofs.Heuristic.Walk

/-!
# The course of annealing

While the time lasts, the course of annealing is known in advance: the temperature of every round
follows from the start, since a cooling is asked about the start again and not about the temperature
before, and the run goes on up to the first temperature that is not above zero, or to the limit of
rounds. Neither the instance nor the words drawn have a part in it.

* `Annealing.marksIn`: the neighbours looked at and the temperatures asked for, as a journal has
  them.
* `Annealing.StopsAt`: the number of rounds that a run has.
* `Moved.marks`, `MovedTimes.marks`: one mark for each move, so one for each random swap.
* `State.OnCourse`, `ends_round_onCourse`: what holds before a round, and before the next one.
* `annealing_course`: the rounds of a run and its journal.
-/

namespace SetCover

open Search

variable {inst : Instance} {E : Fault → Session → Prop} {σ σ₀ σ' : Session} {start : Float}
  {attempts count n : Nat} {cooling : Float → Nat → Float}

namespace Annealing

/-! ## Marks in the journal -/

/-- What a journal tells of the course of annealing. -/
inductive Mark where
  /-- A neighbour was looked at, and taken or turned down. -/
  | neighbour
  /-- A cooling was asked for a temperature. -/
  | temperature (start : Float) (step : Nat)

/-- What an entry tells of the course of annealing. -/
def mark? : Event → Option Mark
  | .moveAccepted .. | .moveRejected _ => some .neighbour
  | .temperatureAsked start step => some (.temperature start step)
  | _ => none

/-- The marks in a journal, first one first. -/
def marksIn (journal : List Event) : List Mark := (journal.filterMap mark?).reverse

/-- The marks of a round: its neighbours, and the temperature that comes after it. -/
def roundMarks (start : Float) (count n : Nat) : List Mark :=
  List.replicate count .neighbour ++ [.temperature start (stepCount (n + 1))]

theorem marksIn_cons {event : Event} {mark : Mark} (h : mark? event = some mark)
    (journal : List Event) : marksIn (event :: journal) = marksIn journal ++ [mark] := by
  rw [marksIn, List.filterMap_cons_some h, List.reverse_cons, marksIn]

theorem marksIn_of_added {P : Event → Prop} (h : Added P σ σ')
    (hP : ∀ event, P event → mark? event = none) : marksIn σ'.journal = marksIn σ.journal :=
  congrArg List.reverse (h.filterMap_eq hP)

theorem mark?_of_isAside (event : Event) (h : IsAside event) : mark? event = none := by
  rcases h with ⟨attempts, rfl⟩ | ⟨step, cost, rfl⟩
  · rfl
  · rfl

theorem mark?_of_isGreedyEntry (event : Event) (h : IsGreedyEntry event) :
    mark? event = none := by
  cases event <;> first | rfl | cases h

/-! ## Moves and rounds -/

theorem marksIn_of_addedOne {event : Event} {mark : Mark} (h : AddedOne IsAside event σ σ')
    (hmark : mark? event = some mark) : marksIn σ'.journal = marksIn σ.journal ++ [mark] := by
  rw [marksIn, h.filterMap_eq mark?_of_isAside, hmark, List.reverse_append]
  rfl

/-- A move leaves the temperature as it is, and its neighbour is marked. -/
theorem Moved.marks {s s' : State} (h : Moved inst attempts s σ s' σ') :
    s'.temperature = s.temperature ∧
      marksIn σ'.journal = marksIn σ.journal ++ [.neighbour] := by
  cases h with
  | taken _ _ _ hentry => exact ⟨rfl, marksIn_of_addedOne hentry rfl⟩
  | refused _ _ _ hentry => exact ⟨rfl, marksIn_of_addedOne hentry rfl⟩

theorem MovedTimes.marks {k : Nat} {s s' : State} (h : MovedTimes inst attempts s σ k s' σ') :
    s'.temperature = s.temperature ∧
      marksIn σ'.journal = marksIn σ.journal ++ List.replicate k .neighbour := by
  induction h with
  | none => exact ⟨rfl, (List.append_nil _).symm⟩
  | more _ hmove ih =>
      obtain ⟨htemperature, hmarks⟩ := hmove.marks
      refine ⟨htemperature.trans ih.1, ?_⟩
      rw [hmarks, ih.2, List.append_assoc, ← List.replicate_succ']

/-- What holds before round `n` of a run that began in the session `σ₀`: the temperature is the one
that follows from the start, and the journal tells of the rounds before. -/
structure State.OnCourse (inst : Instance) (start : Float) (count : Nat)
    (cooling : Float → Nat → Float) (σ₀ : Session) (n : Nat) (s : State) (σ : Session) : Prop where
  covers : s.Covers inst
  temperature : s.temperature = temperatureAt start cooling n
  marks : marksIn σ.journal =
    marksIn σ₀.journal ++ (List.range n).flatMap (roundMarks start count)

theorem ends_round_onCourse (attempts : Nat) {s : State}
    (hs : s.OnCourse inst start count cooling σ₀ n σ) :
    Ends (round inst attempts start count cooling n s) E
      (State.OnCourse inst start count cooling σ₀ (n + 1)) σ := by
  refine ends_round_of_moves ((ends_moves attempts n count hs.covers).weaken ?_)
  rintro s' σ' ⟨hmoved, hs'⟩
  refine ⟨⟨hs'.current, hs'.best⟩, rfl, ?_⟩
  rw [marksIn_cons rfl, hmoved.marks.2, hs.marks, List.range_succ, List.flatMap_append,
    List.flatMap_singleton, roundMarks, List.append_assoc, List.append_assoc]

theorem scheduled (inst : Instance) (settings : Settings) (budget : Nat) (start : Float)
    (count : Nat) (cooling : Float → Nat → Float) (σ₀ : Session) :
    (annealing inst settings budget start count cooling).rounds.Scheduled
      (State.OnCourse inst start count cooling σ₀)
      (fun n => 0.0 < temperatureAt start cooling n) where
  round _ _ _ hs := ends_round_onCourse settings.swapAttempts hs
  live n s σ hs := by
    show decide (0.0 < s.temperature) = true ↔ _
    rw [decide_eq_true_iff, hs.temperature]

/-! ## The number of rounds -/

/-- The first number of rounds after which the temperature is not above zero, or the limit is
reached. -/
structure StopsAt (start : Float) (cooling : Float → Nat → Float) (rounds : Option Nat)
    (steps : Nat) : Prop where
  reached : ¬ 0.0 < temperatureAt start cooling steps ∨ rounds = some steps
  before : ∀ i < steps, 0.0 < temperatureAt start cooling i ∧ rounds ≠ some i

/-- A very long run keeps its last temperature. -/
theorem temperatureAt_of_le (h : 2 ^ 32 - 1 ≤ n) :
    temperatureAt start cooling n = cooling start (2 ^ 32 - 1) := by
  cases n with
  | zero => omega
  | succ n => rw [temperatureAt, stepCount, Nat.min_eq_right h]

theorem StopsAt.le_limit {rounds : Option Nat} {steps : Nat}
    (h : StopsAt start cooling rounds steps) : steps ≤ rounds.getD roundLimit := by
  cases rounds with
  | some limit =>
      by_contra hlt
      exact (h.before limit (Nat.lt_of_not_le hlt)).2 rfl
  | none =>
      show steps ≤ 2 ^ 64
      by_contra hlt
      -- the temperature would be the same as many rounds before
      have hpos := (h.before (2 ^ 32 - 1) (by omega)).1
      have hcold := h.reached.resolve_right (by simp)
      rw [temperatureAt_of_le (by omega)] at hpos hcold
      exact hcold hpos

theorem StopsAt.reached_limit {rounds : Option Nat} {steps : Nat}
    (h : StopsAt start cooling rounds steps) :
    steps = rounds.getD roundLimit ∨ ¬ 0.0 < temperatureAt start cooling steps := by
  rcases h.reached with hcold | rfl
  · exact Or.inr hcold
  · exact Or.inl rfl

theorem StopsAt.lt_iff {rounds : Option Nat} {steps : Nat}
    (h : StopsAt start cooling rounds steps) :
    (n < rounds.getD roundLimit ∧ ∀ i ≤ n, 0.0 < temperatureAt start cooling i) ↔ n < steps := by
  constructor
  · rintro ⟨hlt, hpos⟩
    by_contra hle
    rcases h.reached_limit with hlimit | hcold
    · omega
    · exact hcold (hpos steps (Nat.le_of_not_lt hle))
  · intro hlt
    exact ⟨Nat.lt_of_lt_of_le hlt h.le_limit, fun i hi => (h.before i (by omega)).1⟩

theorem lt_limit_iff {rounds : Option Nat} (hn : n < 2 ^ 64) :
    n < rounds.getD roundLimit ↔ ∀ i ≤ n, rounds ≠ some i := by
  cases rounds with
  | none => simpa [roundLimit] using hn
  | some limit =>
      simp only [Option.getD_some, ne_eq, Option.some_inj]
      constructor
      · intro hlt i hi
        omega
      · intro hne
        by_contra hle
        exact hne limit (Nat.le_of_not_lt hle) rfl

/-! ## Whole runs -/

/-- The time of a run lasts, and its first construction succeeds. -/
structure Lasts (inst : Instance) (budget : Nat) (clock : Clock) (σ : Session) : Prop where
  spares : clock.Spares budget
  constructs : ∃ greedy σ', (cheapestFirst inst).run σ = .ok greedy σ'

variable {settings : Settings} {budget : Nat} {clock : Clock}

/-- With parameters that are in order, a run starts on course. -/
theorem Lasts.exists_start (hlasts : Lasts inst budget clock σ)
    (hcheck : check start count = .ok ()) :
    ∃ first σ₁, (annealing inst settings budget start count cooling).start.run σ = .ok first σ₁ ∧
      first.OnCourse inst start count cooling σ 0 σ₁ := by
  obtain ⟨greedy, σ₁, hrun⟩ := hlasts.constructs
  have hcover : greedy.IsCover inst := (ends_multistart 1 1 0).of_run hrun
  have hadded : Added IsGreedyEntry σ σ₁ := (writes_multistart 1 1 0 σ).of_run hrun
  refine ⟨⟨greedy, greedy, start⟩, σ₁, ?_, ⟨hcover, hcover⟩, rfl, ?_⟩
  · exact (run_ofExcept_ok hcheck).trans (run_bind_ok hrun)
  · rw [marksIn_of_added hadded mark?_of_isGreedyEntry]
    exact (List.append_nil _).symm

end Annealing

/-- **The course of annealing.** With parameters that are in order, while the time lasts and if the
first construction succeeds, every round has the temperature that follows from the start: the start
itself before the first round, and later what the cooling gives for the start and the number of
rounds done, all moves of a round at the same temperature. A round is begun as long as no
temperature up to it fails to be above zero and the limit is not reached. So the number of rounds is
the same for all instances, settings and words, and the whole journal of a run tells of just as many
rounds: in each of them so many neighbours are looked at, and then the cooling is asked once, for
one number of rounds after the other. -/
theorem annealing_course {start : Float} {count : Nat} (hfinite : start.isFinite = true)
    (hnonneg : ¬ start < 0.0) (hcount : 1 ≤ count) (cooling : Float → Nat → Float)
    (rounds : Option Nat) :
    (∀ inst settings budget clock σ, settings.rounds = rounds →
      Annealing.Lasts inst budget clock σ → ∀ n (s : Annealing.State) σ',
      (annealing inst settings budget start count cooling).Begins clock σ n s σ' →
      s.temperature = Annealing.temperatureAt start cooling n ∧
      (∀ k s' σ'', (Annealing.moves inst settings.swapAttempts n k s).run σ' = .ok s' σ'' →
        s'.temperature = Annealing.temperatureAt start cooling n ∧
        Annealing.MovedTimes inst settings.swapAttempts s σ' k s' σ'' ∧
        Annealing.marksIn σ''.journal =
          Annealing.marksIn σ'.journal ++ List.replicate k .neighbour) ∧
      Annealing.marksIn σ'.journal = Annealing.marksIn σ.journal ++
        (List.range n).flatMap (Annealing.roundMarks start count)) ∧
    (∀ n < 2 ^ 64, ∀ inst settings budget clock σ, settings.rounds = rounds →
      Annealing.Lasts inst budget clock σ →
      ((∃ s σ', (annealing inst settings budget start count cooling).Begins clock σ n s σ') ↔
        ∀ i ≤ n, 0.0 < Annealing.temperatureAt start cooling i ∧ rounds ≠ some i)) ∧
    ∀ steps, Annealing.StopsAt start cooling rounds steps →
      ∀ inst settings budget clock σ, settings.rounds = rounds →
      Annealing.Lasts inst budget clock σ →
      (∀ n, (∃ s σ', (annealing inst settings budget start count cooling).Begins clock σ n s σ') ↔
        n < steps) ∧
      ∃ best σ', ((annealing inst settings budget start count cooling).run clock).run σ =
          .ok best σ' ∧
        Annealing.marksIn σ'.journal = Annealing.marksIn σ.journal ++
          (List.range steps).flatMap (Annealing.roundMarks start count) := by
  have hcheck := Annealing.check_eq_ok hfinite hnonneg hcount
  refine ⟨?_, ?_, ?_⟩
  · rintro inst settings budget clock σ rfl hlasts n s σ' hbegins
    obtain ⟨first, σ₁, hstart, hfirst⟩ := hlasts.exists_start hcheck
    have hs := (Annealing.scheduled inst settings budget start count cooling σ).before_round
      hstart hfirst hbegins
    refine ⟨hs.temperature, fun k s' σ'' hrun => ?_, hs.marks⟩
    have hmoved : Annealing.MovedTimes inst settings.swapAttempts s σ' k s' σ'' :=
      ((Annealing.ends_moves (E := noFault) _ n k hs.covers).of_run hrun).1
    obtain ⟨htemperature, hmarks⟩ := hmoved.marks
    exact ⟨htemperature.trans hs.temperature, hmoved, hmarks⟩
  · rintro n hn inst settings budget clock σ rfl hlasts
    obtain ⟨first, σ₁, hstart, hfirst⟩ := hlasts.exists_start hcheck
    rw [(Annealing.scheduled inst settings budget start count cooling σ).exists_begins_iff
      hlasts.spares hstart hfirst]
    show n < settings.rounds.getD roundLimit ∧ _ ↔ _
    rw [Annealing.lt_limit_iff hn, ← forall₂_and]
    exact forall₂_congr fun i _ => and_comm
  · rintro steps hstops inst settings budget clock σ rfl hlasts
    obtain ⟨first, σ₁, hstart, hfirst⟩ := hlasts.exists_start hcheck
    have hscheduled := Annealing.scheduled inst settings budget start count cooling σ
    constructor
    · intro n
      rw [hscheduled.exists_begins_iff hlasts.spares hstart hfirst]
      exact hstops.lt_iff
    · obtain ⟨s, σ', hs, hrun⟩ := hscheduled.exists_run hlasts.spares hstart hfirst
        hstops.le_limit (fun i hi => (hstops.before i hi).1) hstops.reached_limit
      exact ⟨s.best, σ', hrun, hs.marks⟩

/-- A cooling whose value is undefined from its third step on, with two moves per temperature. -/
theorem annealing_course_of_undefined :
    ∃ inst, Instance.build 2 4 [7, 3, 3, 1] [[0, 1, 2], [0, 1, 3]] = .ok inst ∧
      (2.5 : Float).isFinite = true ∧ ¬ (2.5 : Float) < 0.0 ∧
      Annealing.StopsAt 2.5 (fun start k => if k < 3 then start else 0.0 / 0.0) none 3 ∧
      Annealing.Lasts inst 5 (fun _ => 0) ⟨.ofStream (.ofList [3, 1, 4]), []⟩ ∧
      ∃ best σ', ((annealing inst {} 5 2.5 2 fun start k => if k < 3 then start else 0.0 / 0.0).run
          fun _ => 0).run ⟨.ofStream (.ofList [3, 1, 4]), []⟩ = .ok best σ' ∧
        Annealing.marksIn σ'.journal =
          [.neighbour, .neighbour, .temperature 2.5 1, .neighbour, .neighbour, .temperature 2.5 2,
            .neighbour, .neighbour, .temperature 2.5 3] := by
  obtain ⟨inst, hbuild, hcoverable, hpos, hcost⟩ :
      ∃ inst, Instance.build 2 4 [7, 3, 3, 1] [[0, 1, 2], [0, 1, 3]] = .ok inst ∧
        inst.requireCoverable = .ok () ∧ 1 ≤ inst.subsetCount ∧
        ∀ id < inst.subsetCount, inst.costAt id < 2 ^ 63 - 1 :=
    ⟨_, rfl, by with_unfolding_all rfl, by decide, by decide +kernel⟩
  have hfinite : (2.5 : Float).isFinite = true := by decide
  have hnonneg : ¬ (2.5 : Float) < 0.0 := by decide
  have hstops : Annealing.StopsAt 2.5 (fun start k => if k < 3 then start else 0.0 / 0.0) none 3 :=
    ⟨Or.inl (by decide), by decide⟩
  obtain ⟨greedy, -, hgreedy⟩ := cheapestFirst_total hcoverable hpos hcost
  have hlasts : Annealing.Lasts inst 5 (fun _ => 0) ⟨.ofStream (.ofList [3, 1, 4]), []⟩ := by
    refine ⟨fun _ => by decide, ?_⟩
    obtain ⟨s, σ', hrun, -⟩ := (hgreedy noFault _).exists_run
    exact ⟨s, σ', hrun⟩
  refine ⟨inst, hbuild, hfinite, hnonneg, hstops, hlasts, ?_⟩
  obtain ⟨-, -, hruns⟩ := annealing_course hfinite hnonneg (show 1 ≤ 2 by decide)
    (fun start k => if k < 3 then start else 0.0 / 0.0) none
  exact (hruns 3 hstops inst {} 5 _ _ rfl hlasts).2

end SetCover
