import SetCover.Proofs.Instance.Failure
import SetCover.Proofs.Instance.Grammar

/-!
# Lists without room

A reader makes room for a list when it has read its length, before any of the entries. So a text
with a large enough count is not refused for the entries that it does not have: there is no room for
them. `Overruns x B` says that the reader `x` finds no room exactly after numerals of number
sequences that satisfy `B`, and that otherwise it fails with malformed tokens only. As for what
readers accept, there is one rule for each way in which they are built.

* `overruns_bind`, `overruns_reserve`, `overruns_many`.
* `Oversized`, `overruns_whole`: the numbers of an instance up to a count without room.
* `Instance.read_outcome`: all that can become of a text.
-/

namespace SetCover.Reading

open Text (IsNumeral)

variable {α β : Type}

/-- The reader finds no room for a list exactly where numerals come first whose numbers satisfy
`B`; anything else that it fails with is a malformed token. -/
structure Overruns (x : Reading α) (B : List Nat → Prop) : Prop where
  fault : ∀ cursor fault, x.run cursor = .error fault →
    (∃ position why, fault = .malformed position why) ∨ fault = .breach .overLong
  overLong_iff : ∀ position tokens, x.run ⟨position, tokens⟩ = .error (.breach .overLong) ↔
    ∃ used rest numbers, tokens = used ++ rest ∧ List.Forall₂ IsNumeral used numbers ∧ B numbers

theorem Overruns.congr {x : Reading α} {B C : List Nat → Prop} (h : Overruns x B)
    (hBC : ∀ numbers, B numbers ↔ C numbers) : Overruns x C := by
  have hB : B = C := funext fun numbers => propext (hBC numbers)
  exact hB ▸ h

theorem Overruns.failsAfter {x : Reading α} {B : List Nat → Prop} (h : Overruns x B) :
    FailsAfter x (fun _ => .breach .overLong) B := by
  intro position tokens q
  rw [h.overLong_iff]
  simp

theorem overruns_of_failsAfter {x : Reading α} {B : List Nat → Prop}
    (hfault : ∀ cursor fault, x.run cursor = .error fault →
      (∃ position why, fault = .malformed position why) ∨ fault = .breach .overLong)
    (h : FailsAfter x (fun _ => .breach .overLong) B) : Overruns x B := by
  refine ⟨hfault, fun position tokens => ?_⟩
  rw [h position tokens 0]
  simp

/-! ## One rule for each construct -/

/-- A reader that fails with malformed tokens only has room for everything. -/
theorem overruns_never {x : Reading α} (h : ∀ cursor fault, x.run cursor = .error fault →
    ∃ position why, fault = .malformed position why) : Overruns x fun _ => False := by
  refine overruns_of_failsAfter (fun cursor fault hrun => Or.inl (h cursor fault hrun)) ?_
  apply failsAfter_never
  intro cursor _ hrun
  obtain ⟨_, _, hfault⟩ := h _ _ hrun
  cases hfault

theorem overruns_pure (a : α) : Overruns (pure a) fun _ => False := by
  apply overruns_never
  intro cursor fault hrun
  cases hrun

theorem overruns_unless {c : Prop} [Decidable c] (why : Malformation) (a : α) :
    Overruns (if c then refuse why else pure a) fun _ => False := by
  apply overruns_never
  intro cursor fault hrun
  split at hrun
  · cases hrun
    exact ⟨_, _, rfl⟩
  · cases hrun

theorem overruns_number (what : Quantity) : Overruns (number what) fun _ => False := by
  apply overruns_never
  intro cursor fault hrun
  obtain ⟨position, tokens⟩ := cursor
  cases tokens with
  | nil =>
      cases hrun
      exact ⟨_, _, rfl⟩
  | cons token rest =>
      rw [run_number_cons] at hrun
      cases hnumeral : Text.numeral? token with
      | none =>
          rw [hnumeral] at hrun
          cases hrun
          exact ⟨_, _, rfl⟩
      | some n =>
          rw [hnumeral] at hrun
          cases hrun

theorem overruns_reserve (bytes count : Nat) :
    Overruns (reserve bytes count) fun numbers => 2 ^ 63 ≤ count * bytes ∧ numbers = [] := by
  unfold reserve
  split
  · next hroom =>
      apply (overruns_pure ()).congr
      intro numbers
      simp [Nat.not_le.mpr hroom]
  · next hroom =>
      constructor
      · intro cursor fault hrun
        cases hrun
        exact Or.inr rfl
      · intro position tokens
        constructor
        · intro _
          exact ⟨[], tokens, [], rfl, List.Forall₂.nil, Nat.not_lt.mp hroom, rfl⟩
        · intro _
          rfl

theorem overruns_bind {x : Reading α} {f : α → Reading β} {R : α → List Nat → Prop}
    {B : List Nat → Prop} {C : α → List Nat → Prop} (hreads : Reads x R) (hx : Overruns x B)
    (hf : ∀ a, Overruns (f a) (C a)) :
    Overruns (x >>= f) fun numbers => B numbers ∨
      ∃ a first second, numbers = first ++ second ∧ R a first ∧ C a second := by
  refine overruns_of_failsAfter ?_ (failsAfter_bind hreads hx.failsAfter fun a => (hf a).failsAfter)
  intro cursor fault hrun
  rcases run_bind_eq_error.mp hrun with hrun | ⟨a, middle, _, hrun⟩
  · exact hx.fault _ _ hrun
  · exact (hf a).fault _ _ hrun

/-- A counted sequence finds no room in one of its entries, after all entries before it. -/
theorem overruns_many {one : Reading α} {P : α → Prop} {spell : α → List Nat}
    {B : List Nat → Prop} (hreads : Reads one fun a numbers => P a ∧ numbers = spell a)
    (hone : Overruns one B) (count : Nat) :
    Overruns (many count one) fun numbers => ∃ (l : List α) (last : List Nat),
      l.length < count ∧ (∀ a ∈ l, P a) ∧ B last ∧ numbers = l.flatMap spell ++ last :=
  overruns_of_failsAfter (fault_of_many hone.fault count)
    (failsAfter_many hreads hone.failsAfter count)

/-! ## The parts of an instance -/

theorem overruns_member (subsetCount : Nat) : Overruns (member subsetCount) fun _ => False := by
  apply (overruns_bind (reads_number .member) (overruns_number .member) fun id =>
    overruns_unless (.strayId id subsetCount) (id - 1)).congr
  simp

/-- A row finds no room right after its count. -/
theorem overruns_row (subsetCount : Nat) :
    Overruns (row subsetCount) fun numbers => ∃ count, 2 ^ 63 ≤ count * 8 ∧ numbers = [count] := by
  apply (overruns_bind (reads_number .rowLength) (overruns_number .rowLength) fun count =>
    overruns_bind (reads_reserve 8 count) (overruns_reserve 8 count) fun _ =>
    overruns_many (reads_member subsetCount) (overruns_member subsetCount) count).congr
  intro numbers
  constructor
  · intro h
    rcases h with hfalse | ⟨count, _, _, rfl, rfl, ⟨hlong, rfl⟩ | hrest⟩
    · exact hfalse.elim
    · exact ⟨count, hlong, rfl⟩
    · obtain ⟨_, _, _, _, _, _, _, _, _, hfalse, _⟩ := hrest
      exact hfalse.elim
  · intro h
    obtain ⟨count, hlong, rfl⟩ := h
    exact Or.inr ⟨count, [count], [], rfl, rfl, Or.inl ⟨hlong, rfl⟩⟩

/-- The numbers of an instance up to a count without room: that of the subsets, that of the
elements, which is looked at after the costs, or the length of a row. -/
inductive Oversized : List Nat → Prop
  | costs (elementCount subsetCount : Nat) : 2 ^ 63 ≤ subsetCount * 8 →
      Oversized [elementCount, subsetCount]
  | rows (elementCount : Nat) (costs : List Nat) : costs.length * 8 < 2 ^ 63 →
      2 ^ 63 ≤ elementCount * 24 → Oversized (elementCount :: costs.length :: costs)
  | row (elementCount : Nat) (costs : List Nat) (rows : List (List Nat)) (count : Nat) :
      costs.length * 8 < 2 ^ 63 → elementCount * 24 < 2 ^ 63 → rows.length < elementCount →
      (∀ row ∈ rows, row.length * 8 < 2 ^ 63 ∧ ∀ s ∈ row, s < costs.length) →
      2 ^ 63 ≤ count * 8 →
      Oversized (elementCount :: costs.length :: (costs ++ (rows.flatMap rowNumbers ++ [count])))

theorem overruns_whole : Overruns whole Oversized := by
  have hcost : Reads (number .cost) fun n numbers => True ∧ numbers = [n] :=
    (reads_number .cost).congr fun n numbers => by simp
  apply (overruns_bind (reads_number .elementCount) (overruns_number .elementCount)
    fun elementCount =>
    overruns_bind (reads_number .subsetCount) (overruns_number .subsetCount) fun subsetCount =>
    overruns_bind (reads_reserve 8 subsetCount) (overruns_reserve 8 subsetCount) fun _ =>
    overruns_bind (reads_many hcost subsetCount)
      (overruns_many hcost (overruns_number .cost) subsetCount) fun costs =>
    overruns_bind (reads_reserve 24 elementCount) (overruns_reserve 24 elementCount) fun _ =>
    overruns_bind (reads_many (reads_row subsetCount) elementCount)
      (overruns_many (reads_row subsetCount) (overruns_row subsetCount) elementCount) fun rows =>
    overruns_pure (elementCount, subsetCount, costs, rows)).congr
  intro numbers
  constructor
  · intro h
    rcases h with hfalse | ⟨elementCount, _, _, rfl, rfl, h⟩
    · exact hfalse.elim
    rcases h with hfalse | ⟨subsetCount, _, _, rfl, rfl, h⟩
    · exact hfalse.elim
    rcases h with ⟨hlong, rfl⟩ | ⟨_, _, _, rfl, ⟨hroom, rfl⟩, h⟩
    · exact .costs elementCount subsetCount hlong
    rcases h with ⟨_, _, _, _, hfalse, _⟩ | ⟨costs, _, _, rfl, ⟨⟨rfl, _⟩, rfl⟩, h⟩
    · exact hfalse.elim
    rw [List.flatMap_singleton']
    rcases h with ⟨hlong, rfl⟩ | ⟨_, _, _, rfl, ⟨hroom', rfl⟩, h⟩
    · rw [List.append_nil]
      exact .rows elementCount costs hroom hlong
    rcases h with ⟨rows, _, hfewer, hrows, ⟨count, hlong, rfl⟩, rfl⟩ | ⟨_, _, _, _, _, hfalse⟩
    · exact .row elementCount costs rows count hroom hroom' hfewer hrows hlong
    · exact hfalse.elim
  · intro h
    have hspelled : ∀ costs : List Nat, costs = costs.flatMap fun n => [n] := fun costs =>
      (List.flatMap_singleton' costs).symm
    cases h with
    | costs elementCount subsetCount hlong =>
        exact Or.inr ⟨elementCount, [elementCount], _, rfl, rfl,
          Or.inr ⟨subsetCount, [subsetCount], [], rfl, rfl, Or.inl ⟨hlong, rfl⟩⟩⟩
    | rows elementCount costs hroom hlong =>
        exact Or.inr ⟨elementCount, [elementCount], _, rfl, rfl,
          Or.inr ⟨costs.length, [costs.length], _, rfl, rfl,
          Or.inr ⟨(), [], _, rfl, ⟨hroom, rfl⟩,
          Or.inr ⟨costs, costs, [], (List.append_nil _).symm,
            ⟨⟨rfl, fun _ _ => trivial⟩, hspelled costs⟩, Or.inl ⟨hlong, rfl⟩⟩⟩⟩⟩
    | row elementCount costs rows count hroom hroom' hfewer hrows hlong =>
        exact Or.inr ⟨elementCount, [elementCount], _, rfl, rfl,
          Or.inr ⟨costs.length, [costs.length], _, rfl, rfl,
          Or.inr ⟨(), [], _, rfl, ⟨hroom, rfl⟩,
          Or.inr ⟨costs, costs, _, rfl, ⟨⟨rfl, fun _ _ => trivial⟩, hspelled costs⟩,
          Or.inr ⟨(), [], _, rfl, ⟨hroom', rfl⟩,
          Or.inl ⟨rows, [count], hfewer, hrows, ⟨count, hlong, rfl⟩, rfl⟩⟩⟩⟩⟩⟩

end SetCover.Reading

namespace SetCover.Instance

open Text (IsNumeral words)
open Reading (Oversized)

/-- What a reader hands over is never refused. -/
theorem exists_build_of_whole {elementCount subsetCount position : Nat} {costs : List Nat}
    {rows : List (List Nat)} {tokens : List String} {cursor : Cursor}
    (h : Reading.whole.run ⟨position, tokens⟩ =
      .ok ((elementCount, subsetCount, costs, rows), cursor)) :
    ∃ inst, build elementCount subsetCount costs rows = .ok inst := by
  obtain ⟨used, _, hused⟩ := describes_of_whole h
  obtain ⟨inst, hbuild⟩ := exists_build_of_describes hused
  rw [lowered_raised] at hbuild
  exact ⟨inst, hbuild⟩

/-- **What becomes of a text.** Whatever a text says, it is read as an instance, or refused at a
token, or it starts with a count for which there is no room; its parts are never refused once they
are read. There is no room exactly where the words of the text start with the numerals of an
instance up to such a count, even if the entries that it announces are missing. -/
theorem read_outcome (text : String) :
    ((∃ inst, read text = .ok inst) ∨
      (∃ position why, read text = .error (.malformed position why)) ∨
      read text = .error (.breach .overLong)) ∧
    (∀ elementCount subsetCount costs rows cursor,
      Reading.whole.run ⟨0, words text⟩ =
        .ok ((elementCount, subsetCount, costs, rows), cursor) →
      ∃ inst, build elementCount subsetCount costs rows = .ok inst) ∧
    (read text = .error (.breach .overLong) ↔
      ∃ used rest numbers, words text = used ++ rest ∧ List.Forall₂ IsNumeral used numbers ∧
        Oversized numbers) := by
  have hbuilt : ∀ elementCount subsetCount costs rows cursor,
      Reading.whole.run ⟨0, words text⟩ =
        .ok ((elementCount, subsetCount, costs, rows), cursor) →
      ∃ inst, build elementCount subsetCount costs rows = .ok inst :=
    fun _ _ _ _ _ hrun => exists_build_of_whole hrun
  rw [← Reading.overruns_whole.overLong_iff 0, read_eq]
  refine ⟨?_, hbuilt, ?_⟩
  · cases hrun : Reading.whole.run ⟨0, words text⟩ with
    | error fault =>
        rcases Reading.overruns_whole.fault _ _ hrun with ⟨position, why, rfl⟩ | rfl
        · exact Or.inr (Or.inl ⟨position, why, rfl⟩)
        · exact Or.inr (Or.inr rfl)
    | ok result =>
        obtain ⟨⟨elementCount, subsetCount, costs, rows⟩, cursor⟩ := result
        exact Or.inl (hbuilt _ _ _ _ _ hrun)
  · cases hrun : Reading.whole.run ⟨0, words text⟩ with
    | error fault =>
        constructor
        · intro h
          cases h
          rfl
        · intro h
          cases h
          rfl
    | ok result =>
        obtain ⟨⟨elementCount, subsetCount, costs, rows⟩, cursor⟩ := result
        obtain ⟨inst, hbuild⟩ := hbuilt _ _ _ _ _ hrun
        constructor
        · intro h
          have h : build elementCount subsetCount costs rows = .error (.breach .overLong) := h
          rw [hbuild] at h
          cases h
        · intro h
          cases h

/-- The costs of more subsets are announced than there is room for, and none is there. -/
theorem read_overLong_of_missing_costs :
    read "1 18446744073709551615" = .error (.breach .overLong) ∧
      ¬ ((∃ inst, read "1 18446744073709551615" = .ok inst) ∨
        ∃ position why, read "1 18446744073709551615" = .error (.malformed position why)) := by
  have hwords : words "1 18446744073709551615" = ["1", "18446744073709551615"] := by decide
  have hnumerals : List.Forall₂ (fun token n => Text.numeral? token = some n)
      ["1", "18446744073709551615"] [1, 18446744073709551615] := by
    decide
  have hused := hnumerals.imp fun _ _ => Text.numeral?_eq_some_iff.mp
  have hlong : Oversized [1, 18446744073709551615] := .costs _ _ (by decide)
  have hrun := (Reading.overruns_whole.overLong_iff 0 _).mpr
    ⟨_, [], _, (List.append_nil _).symm, hused, hlong⟩
  have hread : read "1 18446744073709551615" = .error (.breach .overLong) := by
    rw [read_eq, hwords, hrun]
  rw [hread]
  simp

end SetCover.Instance
