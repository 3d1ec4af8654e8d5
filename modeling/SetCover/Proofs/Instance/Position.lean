import SetCover.Proofs.Instance.Overrun

/-!
# Where texts are refused

A reader asks for one token after another, and what it makes of them does not depend on the tokens
that it has not asked for. So a text that is cut off somewhere before that misses its next token,
and a token that is refused is refused whatever comes after it. There is again one rule for each way
in which readers are built.

* `AsksFor`: all of these tokens are asked for.
* `Orderly`, `orderly_bind`, `orderly_many`: tokens are asked for in order.
* `ExpectsId`, `failsAfter_whole`: the numbers of an instance up to an id that no subset has.
* `Instance.read_positions`: the position of a fault.
-/

namespace SetCover.Reading

open Text (IsNumeral)

variable {α β : Type}

/-! ## Tokens in order -/

/-- The reader asks for all of these tokens: it misses the first one that is cut off. -/
def AsksFor (x : Reading α) (position : Nat) (used : List String) : Prop :=
  ∀ front back, used = front ++ back → back ≠ [] →
    ∃ what, x.run ⟨position, front⟩ =
      .error (.malformed (position + front.length + 1) (.missing what))

/-- The reader asks for the tokens that it takes, and for those up to the one that it refuses,
unless that one is missing; what comes after these tokens does not matter. -/
structure Orderly (x : Reading α) : Prop where
  of_ok : ∀ position tokens a cursor, x.run ⟨position, tokens⟩ = .ok (a, cursor) →
    ∃ used rest, tokens = used ++ rest ∧ cursor = ⟨position + used.length, rest⟩ ∧
      AsksFor x position used ∧
      ∀ rest', x.run ⟨position, used ++ rest'⟩ = .ok (a, ⟨position + used.length, rest'⟩)
  of_error : ∀ position tokens q why, x.run ⟨position, tokens⟩ = .error (.malformed q why) →
    (∃ used rest, tokens = used ++ rest ∧ q = position + used.length ∧ AsksFor x position used ∧
      ∀ rest', x.run ⟨position, used ++ rest'⟩ = .error (.malformed q why)) ∨
    q = position + tokens.length + 1 ∧ AsksFor x position tokens ∧ ∃ what, why = .missing what

theorem asksFor_nil (x : Reading α) (position : Nat) : AsksFor x position [] := by
  intro front back h hne
  exact absurd (List.append_eq_nil_iff.mp h.symm).2 hne

theorem AsksFor.bind_left {x : Reading α} {position : Nat} {used : List String}
    (h : AsksFor x position used) (f : α → Reading β) : AsksFor (x >>= f) position used := by
  intro front back hused hne
  obtain ⟨what, hrun⟩ := h front back hused hne
  exact ⟨what, run_bind_eq_error.mpr (Or.inl hrun)⟩

theorem AsksFor.bind {x : Reading α} {f : α → Reading β} {position : Nat} {a : α}
    {used₁ used₂ : List String} (hrun : ∀ rest,
      x.run ⟨position, used₁ ++ rest⟩ = .ok (a, ⟨position + used₁.length, rest⟩))
    (h₁ : AsksFor x position used₁) (h₂ : AsksFor (f a) (position + used₁.length) used₂) :
    AsksFor (x >>= f) position (used₁ ++ used₂) := by
  have hsecond : ∀ front back, used₂ = front ++ back → back ≠ [] →
      ∃ what, (x >>= f).run ⟨position, used₁ ++ front⟩ =
        .error (.malformed (position + (used₁ ++ front).length + 1) (.missing what)) := by
    intro front back hused hne
    obtain ⟨what, hmissing⟩ := h₂ front back hused hne
    refine ⟨what, run_bind_eq_error.mpr (Or.inr ⟨a, _, hrun front, ?_⟩)⟩
    rw [hmissing, List.length_append, ← Nat.add_assoc]
  intro front back hused hne
  rcases List.append_eq_append_iff.mp hused with ⟨c, rfl, hback⟩ | ⟨c, hfront, rfl⟩
  · exact hsecond c back hback hne
  · cases c with
    | nil =>
        rw [List.append_nil] at hfront
        subst hfront
        have hmissing := hsecond [] used₂ rfl hne
        rwa [List.append_nil] at hmissing
    | cons token c => exact h₁.bind_left f front _ hfront (List.cons_ne_nil token c)

/-! ## One rule for each construct -/

/-- A reader that takes no token, and that refuses, if at all, whatever comes. -/
theorem orderly_still {x : Reading α}
    (hok : ∀ position tokens a cursor, x.run ⟨position, tokens⟩ = .ok (a, cursor) →
      cursor = ⟨position, tokens⟩ ∧ ∀ rest, x.run ⟨position, rest⟩ = .ok (a, ⟨position, rest⟩))
    (herror : ∀ position tokens q why, x.run ⟨position, tokens⟩ = .error (.malformed q why) →
      q = position ∧ ∀ rest, x.run ⟨position, rest⟩ = .error (.malformed q why)) : Orderly x := by
  constructor
  · intro position tokens a cursor hrun
    obtain ⟨hcursor, hsame⟩ := hok position tokens a cursor hrun
    exact ⟨[], tokens, rfl, hcursor, asksFor_nil x position, hsame⟩
  · intro position tokens q why hrun
    obtain ⟨hq, hsame⟩ := herror position tokens q why hrun
    exact Or.inl ⟨[], tokens, rfl, hq, asksFor_nil x position, hsame⟩

theorem orderly_pure (a : α) : Orderly (pure a) := by
  apply orderly_still
  · intro position tokens b cursor hrun
    cases hrun
    exact ⟨rfl, fun rest => rfl⟩
  · intro position tokens q why hrun
    cases hrun

theorem orderly_unless {c : Prop} [Decidable c] (why : Malformation) (a : α) :
    Orderly (if c then refuse why else pure a) := by
  split
  · apply orderly_still
    · intro position tokens b cursor hrun
      cases hrun
    · intro position tokens q why' hrun
      cases hrun
      exact ⟨rfl, fun rest => rfl⟩
  · exact orderly_pure a

theorem orderly_reserve (bytes count : Nat) : Orderly (reserve bytes count) := by
  unfold reserve
  split
  · exact orderly_pure ()
  · apply orderly_still
    · intro position tokens b cursor hrun
      cases hrun
    · intro position tokens q why hrun
      cases hrun

theorem orderly_number (what : Quantity) : Orderly (number what) := by
  have hasks : ∀ position token, AsksFor (number what) position [token] := by
    intro position token front back hused hne
    obtain ⟨rfl, _⟩ | ⟨_, hback⟩ := List.singleton_eq_append_iff.mp hused
    · exact ⟨what, run_number_nil what position⟩
    · exact absurd hback hne
  constructor
  · intro position tokens n cursor hrun
    cases tokens with
    | nil => cases hrun
    | cons token rest =>
        rw [run_number_cons] at hrun
        split at hrun
        · next hnumeral =>
            cases hrun
            refine ⟨[token], rest, rfl, rfl, hasks position token, fun rest' => ?_⟩
            rw [List.singleton_append, run_number_cons, hnumeral]
            rfl
        · cases hrun
  · intro position tokens q why hrun
    cases tokens with
    | nil =>
        cases hrun
        exact Or.inr ⟨rfl, asksFor_nil _ position, what, rfl⟩
    | cons token rest =>
        rw [run_number_cons] at hrun
        split at hrun
        · cases hrun
        · next hnumeral =>
            cases hrun
            refine Or.inl ⟨[token], rest, rfl, rfl, hasks position token, fun rest' => ?_⟩
            rw [List.singleton_append, run_number_cons, hnumeral]

theorem orderly_bind {x : Reading α} {f : α → Reading β} (hx : Orderly x)
    (hf : ∀ a, Orderly (f a)) : Orderly (x >>= f) := by
  constructor
  · intro position tokens b cursor hrun
    obtain ⟨a, middle, hrun, hrun'⟩ := run_bind_eq_ok.mp hrun
    obtain ⟨used₁, rest₁, rfl, rfl, hasks₁, hsame₁⟩ := hx.of_ok _ _ _ _ hrun
    obtain ⟨used₂, rest₂, rfl, rfl, hasks₂, hsame₂⟩ := (hf a).of_ok _ _ _ _ hrun'
    have hlength : position + (used₁ ++ used₂).length =
        position + used₁.length + used₂.length := by
      rw [List.length_append, Nat.add_assoc]
    refine ⟨used₁ ++ used₂, rest₂, (List.append_assoc ..).symm, by rw [hlength],
      hasks₁.bind hsame₁ hasks₂, fun rest' => ?_⟩
    rw [List.append_assoc, hlength]
    exact run_bind_eq_ok.mpr ⟨a, _, hsame₁ _, hsame₂ rest'⟩
  · intro position tokens q why hrun
    rcases run_bind_eq_error.mp hrun with hrun | ⟨a, middle, hrun, hrun'⟩
    · rcases hx.of_error _ _ _ _ hrun with ⟨used, rest, htokens, hq, hasks, hsame⟩ |
        ⟨hq, hasks, hwhy⟩
      · refine Or.inl ⟨used, rest, htokens, hq, hasks.bind_left f, fun rest' => ?_⟩
        exact run_bind_eq_error.mpr (Or.inl (hsame rest'))
      · exact Or.inr ⟨hq, hasks.bind_left f, hwhy⟩
    · obtain ⟨used₁, rest₁, rfl, rfl, hasks₁, hsame₁⟩ := hx.of_ok _ _ _ _ hrun
      rcases (hf a).of_error _ _ _ _ hrun' with ⟨used₂, rest₂, rfl, hq, hasks₂, hsame₂⟩ |
        ⟨hq, hasks₂, hwhy⟩
      · refine Or.inl ⟨used₁ ++ used₂, rest₂, (List.append_assoc ..).symm, ?_,
          hasks₁.bind hsame₁ hasks₂, fun rest' => ?_⟩
        · rw [hq, List.length_append, Nat.add_assoc]
        · rw [List.append_assoc]
          exact run_bind_eq_error.mpr (Or.inr ⟨a, _, hsame₁ _, hsame₂ rest'⟩)
      · refine Or.inr ⟨?_, hasks₁.bind hsame₁ hasks₂, hwhy⟩
        rw [hq, List.length_append, Nat.add_assoc position]

theorem orderly_many {one : Reading α} (hone : Orderly one) (count : Nat) :
    Orderly (many count one) := by
  have hafter : ∀ done : List α, Orderly (manyAfter one count done) := by
    induction count with
    | zero => exact fun done => orderly_pure done.reverse
    | succ count ih => exact fun done => orderly_bind hone fun a => ih (a :: done)
  exact hafter []

theorem orderly_member (subsetCount : Nat) : Orderly (member subsetCount) :=
  orderly_bind (orderly_number .member) fun id =>
    orderly_unless (.strayId id subsetCount) (id - 1)

theorem orderly_row (subsetCount : Nat) : Orderly (row subsetCount) :=
  orderly_bind (orderly_number .rowLength) fun count =>
    orderly_bind (orderly_reserve 8 count) fun _ => orderly_many (orderly_member subsetCount) count

theorem orderly_whole : Orderly whole :=
  orderly_bind (orderly_number .elementCount) fun elementCount =>
    orderly_bind (orderly_number .subsetCount) fun subsetCount =>
    orderly_bind (orderly_reserve 8 subsetCount) fun _ =>
    orderly_bind (orderly_many (orderly_number .cost) subsetCount) fun costs =>
    orderly_bind (orderly_reserve 24 elementCount) fun _ =>
    orderly_bind (orderly_many (orderly_row subsetCount) elementCount) fun rows =>
    orderly_pure (elementCount, subsetCount, costs, rows)

/-! ## Ids that no subset has -/

section Strays

variable {id n : Nat}

/-- A token is refused since it is this id and there are `n` subsets. -/
def strayAt (id n position : Nat) : Fault := .malformed position (.strayId id n)

theorem strayAt_inj {p q : Nat} : strayAt id n p = strayAt id n q ↔ p = q := by
  simp [strayAt]

theorem failsAfter_number (what : Quantity) :
    FailsAfter (number what) (strayAt id n) fun _ => False := by
  apply failsAfter_never
  rintro ⟨position, tokens⟩ q hrun
  cases tokens with
  | nil => cases hrun
  | cons token rest =>
      rw [run_number_cons] at hrun
      split at hrun
      · cases hrun
      · cases hrun

theorem failsAfter_reserve (bytes count : Nat) :
    FailsAfter (reserve bytes count) (strayAt id n) fun _ => False := by
  apply failsAfter_never
  intro cursor q hrun
  unfold reserve at hrun
  split at hrun
  · cases hrun
  · cases hrun

theorem failsAfter_unless (given subsetCount : Nat) (s : Nat) :
    FailsAfter (if given = 0 ∨ subsetCount < given then refuse (.strayId given subsetCount)
      else pure s) (strayAt id n)
      fun numbers => (given = id ∧ subsetCount = n ∧ (id = 0 ∨ n < id)) ∧ numbers = [] := by
  split
  · next hstray =>
      intro position tokens q
      constructor
      · intro hrun
        cases hrun
        exact ⟨[], tokens, [], rfl, rfl, .nil, ⟨rfl, rfl, hstray⟩, rfl⟩
      · rintro ⟨used, rest, numbers, rfl, hq, hused, ⟨rfl, rfl, _⟩, rfl⟩
        cases hused
        rw [hq]
        rfl
  · next hknown =>
      apply (failsAfter_pure s).congr
      intro numbers
      constructor
      · exact False.elim
      · rintro ⟨⟨rfl, rfl, hstray⟩, _⟩
        exact hknown hstray

theorem failsAfter_member (subsetCount : Nat) :
    FailsAfter (member subsetCount) (strayAt id n)
      fun numbers => (subsetCount = n ∧ (id = 0 ∨ n < id)) ∧ numbers = [id] := by
  apply (failsAfter_bind (reads_number .member) (failsAfter_number .member) fun given =>
    failsAfter_unless given subsetCount (given - 1)).congr
  intro numbers
  constructor
  · rintro (hfalse | ⟨given, _, _, rfl, rfl, ⟨rfl, hstray⟩, rfl⟩)
    · exact hfalse.elim
    · exact ⟨hstray, rfl⟩
  · rintro ⟨hstray, rfl⟩
    exact Or.inr ⟨id, [id], [], rfl, rfl, ⟨rfl, hstray⟩, rfl⟩

/-- The numbers of a row up to where its next id is expected. -/
inductive ExpectsIdOfRow (n : Nat) : List Nat → Prop
  | intro (count : Nat) (row : List Nat) : count * 8 < 2 ^ 63 → row.length < count →
      (∀ s ∈ row, s < n) → ExpectsIdOfRow n (count :: row.map (· + 1))

theorem failsAfter_row (subsetCount : Nat) :
    FailsAfter (row subsetCount) (strayAt id n)
      fun numbers => (subsetCount = n ∧ (id = 0 ∨ n < id)) ∧
        ∃ before, ExpectsIdOfRow n before ∧ numbers = before ++ [id] := by
  apply (failsAfter_bind (reads_number .rowLength) (failsAfter_number .rowLength) fun count =>
    failsAfter_bind (reads_reserve 8 count) (failsAfter_reserve 8 count) fun _ =>
    failsAfter_many (reads_member subsetCount) (failsAfter_member subsetCount) count).congr
  intro numbers
  constructor
  · rintro (hfalse | ⟨count, _, _, rfl, rfl, hfalse | ⟨_, _, _, rfl, ⟨hroom, rfl⟩, row, _,
      hlength, hrow, ⟨⟨rfl, hstray⟩, rfl⟩, rfl⟩⟩)
    · exact hfalse.elim
    · exact hfalse.elim
    · refine ⟨⟨rfl, hstray⟩, _, .intro count row hroom hlength hrow, ?_⟩
      rw [List.map_eq_flatMap]
      rfl
  · rintro ⟨⟨rfl, hstray⟩, _, ⟨count, row, hroom, hlength, hrow⟩, rfl⟩
    refine Or.inr ⟨count, [count], _, rfl, rfl, Or.inr ⟨(), [], _, rfl, ⟨hroom, rfl⟩, row, [id],
      hlength, hrow, ⟨⟨rfl, hstray⟩, rfl⟩, ?_⟩⟩
    rw [List.map_eq_flatMap]
    rfl

/-- The numbers of an instance with `n` subsets up to where an id is expected. -/
inductive ExpectsId (n : Nat) : List Nat → Prop
  | intro (elementCount : Nat) (costs : List Nat) (rows : List (List Nat)) (last : List Nat) :
      costs.length = n → n * 8 < 2 ^ 63 → elementCount * 24 < 2 ^ 63 →
      rows.length < elementCount →
      (∀ row ∈ rows, row.length * 8 < 2 ^ 63 ∧ ∀ s ∈ row, s < n) → ExpectsIdOfRow n last →
      ExpectsId n (elementCount :: n :: (costs ++ (rows.flatMap rowNumbers ++ last)))

/-- A text is refused for an id exactly where an id is expected and no subset has this one. -/
theorem failsAfter_whole :
    FailsAfter whole (strayAt id n) fun numbers => (id = 0 ∨ n < id) ∧
      ∃ before, ExpectsId n before ∧ numbers = before ++ [id] := by
  have hcost : Reads (number .cost) fun n numbers => True ∧ numbers = [n] :=
    (reads_number .cost).congr fun n numbers => by simp
  apply (failsAfter_bind (reads_number .elementCount) (failsAfter_number .elementCount)
    fun elementCount =>
    failsAfter_bind (reads_number .subsetCount) (failsAfter_number .subsetCount)
      fun subsetCount =>
    failsAfter_bind (reads_reserve 8 subsetCount) (failsAfter_reserve 8 subsetCount) fun _ =>
    failsAfter_bind (reads_many hcost subsetCount)
      (failsAfter_many hcost (failsAfter_number .cost) subsetCount) fun costs =>
    failsAfter_bind (reads_reserve 24 elementCount) (failsAfter_reserve 24 elementCount) fun _ =>
    failsAfter_bind (reads_many (reads_row subsetCount) elementCount)
      (failsAfter_many (reads_row subsetCount) (failsAfter_row subsetCount) elementCount)
      fun rows =>
    failsAfter_pure (elementCount, subsetCount, costs, rows)).congr
  intro numbers
  constructor
  · rintro (hfalse | ⟨elementCount, _, _, rfl, rfl, h⟩)
    · exact hfalse.elim
    rcases h with hfalse | ⟨subsetCount, _, _, rfl, rfl, h⟩
    · exact hfalse.elim
    rcases h with hfalse | ⟨_, _, _, rfl, ⟨hroom, rfl⟩, h⟩
    · exact hfalse.elim
    rcases h with ⟨_, _, _, _, hfalse, _⟩ | ⟨costs, _, _, rfl, ⟨⟨hcosts, _⟩, rfl⟩, h⟩
    · exact hfalse.elim
    rcases h with hfalse | ⟨_, _, _, rfl, ⟨hroom', rfl⟩, h⟩
    · exact hfalse.elim
    rcases h with ⟨rows, _, hfewer, hrows, ⟨⟨rfl, hstray⟩, last, hlast, rfl⟩, rfl⟩ |
      ⟨_, _, _, _, _, hfalse⟩
    · refine ⟨hstray, _, .intro elementCount costs rows last hcosts hroom hroom' hfewer hrows hlast,
        ?_⟩
      rw [List.flatMap_singleton']
      simp
    · exact hfalse.elim
  · rintro ⟨hstray, _, ⟨elementCount, costs, rows, last, hcosts, hroom, hroom', hfewer, hrows,
      hlast⟩, rfl⟩
    refine Or.inr ⟨elementCount, [elementCount], _, rfl, rfl,
      Or.inr ⟨n, [n], costs ++ (rows.flatMap rowNumbers ++ (last ++ [id])), by simp, rfl,
      Or.inr ⟨(), [], _, rfl, ⟨hroom, rfl⟩,
      Or.inr ⟨costs, costs, _, rfl, ⟨⟨hcosts, fun _ _ => trivial⟩, ?_⟩,
      Or.inr ⟨(), [], _, rfl, ⟨hroom', rfl⟩,
      Or.inl ⟨rows, last ++ [id], hfewer, hrows, ⟨⟨rfl, hstray⟩, last, hlast, rfl⟩, rfl⟩⟩⟩⟩⟩⟩
    exact (List.flatMap_singleton' costs).symm

end Strays

end SetCover.Reading

namespace SetCover.Instance

open Text (IsNumeral words)
open Reading (ExpectsId)

/-- A text is refused only while it is read. -/
theorem read_eq_error_iff {text : String} {fault : Fault} :
    read text = .error fault ↔ Reading.whole.run ⟨0, words text⟩ = .error fault := by
  rw [read_eq]
  cases hrun : Reading.whole.run ⟨0, words text⟩ with
  | error fault' => simp
  | ok result =>
      obtain ⟨⟨elementCount, subsetCount, costs, rows⟩, cursor⟩ := result
      obtain ⟨inst, hbuild⟩ := exists_build_of_whole hrun
      simp [hbuild]

/-- A text that has only the first `j` of the tokens asked for is refused for the next one. -/
theorem read_of_take {text text' : String} {used rest : List String}
    (hasks : Reading.whole.AsksFor 0 used) (hwords : words text = used ++ rest) {j : Nat}
    (hj : j < used.length) (htext' : words text' = (words text).take j) :
    ∃ what, read text' = .error (.malformed (j + 1) (.missing what)) := by
  have htake : words text' = used.take j := by
    rw [htext', hwords, List.take_append_of_le_length (Nat.le_of_lt hj)]
  have hcut : used.drop j ≠ [] := List.ne_nil_of_length_pos (by rw [List.length_drop]; omega)
  obtain ⟨what, hrun⟩ := hasks (used.take j) (used.drop j) (List.take_append_drop j used).symm hcut
  refine ⟨what, read_eq_error_iff.mpr ?_⟩
  rw [htake, hrun, List.length_take_of_le (Nat.le_of_lt hj), Nat.zero_add]

/-- So is a text that has only tokens before the one that the whole text is refused for. -/
theorem read_of_take_of_malformed {text text' : String} {q j : Nat} {why : Malformation}
    (h : read text = .error (.malformed q why)) (hj : j < q)
    (htext' : words text' = (words text).take j) :
    ∃ what, read text' = .error (.malformed (j + 1) (.missing what)) := by
  rcases Reading.orderly_whole.of_error _ _ _ _ (read_eq_error_iff.mp h) with
    ⟨used, rest, hwords, rfl, hasks, _⟩ | ⟨rfl, hasks, what, rfl⟩
  · exact read_of_take hasks hwords (by omega) htext'
  · by_cases hlast : j = (words text).length
    · rw [hlast, List.take_length] at htext'
      refine ⟨what, ?_⟩
      rw [read_congr (Text.words_eq_iff.mp htext'), h, hlast, Nat.zero_add]
    · exact read_of_take hasks (List.append_nil _).symm (by omega) htext'

/-- A token that is there is refused whatever comes after it. -/
theorem read_of_same_take {text text' : String} {q : Nat} {why : Malformation}
    (h : read text = .error (.malformed q why)) (hq : q ≤ (words text).length)
    (hsame : (words text').take q = (words text).take q) :
    read text' = .error (.malformed q why) := by
  rcases Reading.orderly_whole.of_error _ _ _ _ (read_eq_error_iff.mp h) with
    ⟨used, rest, hwords, rfl, _, hrun⟩ | ⟨rfl, _⟩
  · rw [Nat.zero_add, hwords, List.take_left] at hsame
    have hwords' : words text' = used ++ (words text').drop used.length := by
      conv_lhs => rw [← List.take_append_drop used.length (words text'), hsame]
    rw [read_eq_error_iff, hwords']
    exact hrun _
  · omega

/-- An id is refused exactly where an id is expected and no subset has this one. -/
theorem read_eq_strayId_iff {text : String} {q id n : Nat} :
    read text = .error (.malformed q (.strayId id n)) ↔
      ∃ before token rest numbers, words text = before ++ token :: rest ∧
        q = before.length + 1 ∧ IsNumeral token id ∧ (id = 0 ∨ n < id) ∧
        List.Forall₂ IsNumeral before numbers ∧ ExpectsId n numbers := by
  rw [read_eq_error_iff]
  refine (Reading.failsAfter_whole 0 (words text) q).trans ?_
  simp only [Reading.strayAt_inj, Nat.zero_add]
  constructor
  · rintro ⟨used, rest, _, hwords, rfl, hused, hstray, numbers, hexpects, rfl⟩
    obtain ⟨before, last, rfl, hbefore, hlast⟩ := Reading.exists_split_of_numerals hused
    obtain ⟨token, _, htoken, hnil, rfl⟩ := List.forall₂_cons_right_iff.mp hlast
    rw [List.forall₂_nil_right_iff.mp hnil] at hwords ⊢
    refine ⟨before, token, rest, numbers, ?_, ?_, htoken, hstray, hbefore, hexpects⟩
    · rw [hwords, List.append_assoc, List.singleton_append]
    · rw [List.length_append, List.length_singleton]
  · rintro ⟨before, token, rest, numbers, hwords, rfl, htoken, hstray, hbefore, hexpects⟩
    refine ⟨before ++ [token], rest, numbers ++ [id], ?_, ?_,
      List.rel_append hbefore (.cons htoken .nil), hstray, numbers, hexpects, rfl⟩
    · rw [hwords, List.append_assoc, List.singleton_append]
    · rw [List.length_append, List.length_singleton]

/-- **The position of a fault.** Unless there is no room for its lists, a text is read up to a
token, or it is refused at one. Cut off anywhere before that token, it is refused for the next
token, which is missing. A fault at a token that is there does not depend on what comes after it,
and behind the last token there are no faults but that of a missing token. An id is refused at its
own position, exactly if it is in the place of an id and no subset has it. -/
theorem read_positions (text : String) (hroom : ∀ why, read text ≠ .error (.breach why)) :
    (∃ asked,
      ((∃ inst parts used rest, read text = .ok inst ∧ words text = used ++ rest ∧
          Reading.whole.run ⟨0, words text⟩ = .ok (parts, ⟨asked, rest⟩) ∧ used.length = asked) ∨
        ∃ why, read text = .error (.malformed asked why)) ∧
      ∀ j < asked, (∃ text', words text' = (words text).take j) ∧
        ∀ text', words text' = (words text).take j →
          ∃ what, read text' = .error (.malformed (j + 1) (.missing what))) ∧
    (∀ q why, read text = .error (.malformed q why) →
      q ≤ (words text).length + 1 ∧
      (q ≤ (words text).length → ∀ text', (words text').take q = (words text).take q →
        read text' = .error (.malformed q why)) ∧
      (q = (words text).length + 1 → ∃ what, why = .missing what)) ∧
    ∀ q id n, read text = .error (.malformed q (.strayId id n)) ↔
      ∃ before token rest numbers, words text = before ++ token :: rest ∧
        q = before.length + 1 ∧ IsNumeral token id ∧ (id = 0 ∨ n < id) ∧
        List.Forall₂ IsNumeral before numbers ∧ ExpectsId n numbers := by
  refine ⟨?_, ?_, fun q id n => read_eq_strayId_iff⟩
  · cases hrun : Reading.whole.run ⟨0, words text⟩ with
    | ok result =>
        obtain ⟨⟨elementCount, subsetCount, costs, rows⟩, cursor⟩ := result
        obtain ⟨used, rest, hwords, rfl, hasks, _⟩ := Reading.orderly_whole.of_ok _ _ _ _ hrun
        obtain ⟨inst, hbuild⟩ := exists_build_of_whole hrun
        have hread : read text = .ok inst := by
          rw [read_eq, hrun]
          exact hbuild
        refine ⟨used.length, Or.inl ⟨inst, (elementCount, subsetCount, costs, rows), used, rest,
          hread, hwords, ?_, rfl⟩, fun j hj => ?_⟩
        · rw [Nat.zero_add]
        · exact ⟨Text.exists_words_take text j, fun text' => read_of_take hasks hwords hj⟩
    | error fault =>
        have hread : read text = .error fault := read_eq_error_iff.mpr hrun
        rcases Reading.overruns_whole.fault _ _ hrun with ⟨q, why, rfl⟩ | rfl
        · refine ⟨q, Or.inr ⟨why, hread⟩, fun j hj => ?_⟩
          exact ⟨Text.exists_words_take text j, fun text' => read_of_take_of_malformed hread hj⟩
        · exact absurd hread (hroom _)
  · intro q why h
    refine ⟨?_, fun hq text' => read_of_same_take h hq, fun hq => ?_⟩
    · rcases Reading.orderly_whole.of_error _ _ _ _ (read_eq_error_iff.mp h) with
        ⟨used, rest, hwords, rfl, _⟩ | ⟨rfl, _⟩
      · rw [hwords, List.length_append]
        omega
      · omega
    · rcases Reading.orderly_whole.of_error _ _ _ _ (read_eq_error_iff.mp h) with
        ⟨used, rest, hwords, rfl, _⟩ | ⟨_, _, hwhy⟩
      · rw [hwords, List.length_append] at hq
        omega
      · exact hwhy

/-- The sixth token is the id of a third subset, of two. -/
theorem read_positions_of_stray :
    (∀ why, read "1 2 5 7 1 3 9" ≠ .error (.breach why)) ∧
      read "1 2 5 7 1 3 9" = .error (.malformed 6 (.strayId 3 2)) ∧
      (∃ what, read "1 2 5" = .error (.malformed 4 (.missing what))) ∧
      read "1 2 5 7 1 3" = .error (.malformed 6 (.strayId 3 2)) ∧
      ∃ before token rest, words "1 2 5 7 1 3 9" = before ++ token :: rest ∧
        6 = before.length + 1 ∧ IsNumeral token 3 := by
  have hread : read "1 2 5 7 1 3 9" = .error (.malformed 6 (.strayId 3 2)) := by
    rw [read_eq, show words "1 2 5 7 1 3 9" = ["1", "2", "5", "7", "1", "3", "9"] by decide]
    rfl
  have hroom : ∀ why, read "1 2 5 7 1 3 9" ≠ .error (.breach why) := by
    intro why h
    rw [hread] at h
    cases h
  obtain ⟨⟨asked, hasked, hcut⟩, hrefused, hstray⟩ := read_positions "1 2 5 7 1 3 9" hroom
  obtain rfl : 6 = asked := by
    rcases hasked with ⟨_, _, _, _, h, _⟩ | ⟨_, h⟩
    · rw [hread] at h
      cases h
    · rw [hread] at h
      cases h
      rfl
  obtain ⟨before, token, rest, _, hwords, hposition, htoken, _⟩ := (hstray 6 3 2).mp hread
  exact ⟨hroom, hread, (hcut 3 (by decide)).2 "1 2 5" (by decide),
    (hrefused 6 _ hread).2.1 (by decide) "1 2 5 7 1 3" (by decide), before, token, rest, hwords,
    hposition, htoken⟩

end SetCover.Instance
