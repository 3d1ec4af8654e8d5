import Mathlib.Data.List.Forall2
import SetCover.Instance.Reader
import SetCover.Proofs.Text.Numeral

/-!
# What readers accept

A reader of tokens takes numerals off the front of the tokens and leaves the others as they are.
`Reads x R` says that the reader `x` succeeds exactly on numerals of number sequences that `R`
relates to its result, whatever comes after them. There is one rule for each way in which readers
are built, so the grammar of a reader follows its definition.

* `reads_pure`, `reads_bind`, `reads_unless`, `reads_number`, `reads_reserve`, `reads_many`.
* `reads_row`, `reads_whole`: the numbers of a row, and of a whole instance.
-/

namespace SetCover.Reading

open Text (IsNumeral)

variable {α β : Type}

/-- The reader succeeds exactly where numerals come first whose numbers `R` relates to the result;
it takes these tokens and counts them. -/
def Reads (x : Reading α) (R : α → List Nat → Prop) : Prop :=
  ∀ position tokens a cursor, x.run ⟨position, tokens⟩ = .ok (a, cursor) ↔
    ∃ used numbers, tokens = used ++ cursor.rest ∧
      cursor.position = position + used.length ∧ List.Forall₂ IsNumeral used numbers ∧ R a numbers

theorem Reads.congr {x : Reading α} {R S : α → List Nat → Prop} (h : Reads x R)
    (hRS : ∀ a numbers, R a numbers ↔ S a numbers) : Reads x S := by
  have hR : R = S := funext fun a => funext fun numbers => propext (hRS a numbers)
  exact hR ▸ h

/-! ## One rule for each construct -/

theorem run_bind_eq_ok {x : Reading α} {f : α → Reading β} {start finish : Cursor} {b : β} :
    (x >>= f).run start = .ok (b, finish) ↔
      ∃ a middle, x.run start = .ok (a, middle) ∧ (f a).run middle = .ok (b, finish) := by
  rw [StateT.run_bind]
  cases hx : x.run start with
  | error fault =>
      constructor
      · intro h
        cases h
      · rintro ⟨a, middle, h, -⟩
        cases h
  | ok result =>
      obtain ⟨a, middle⟩ := result
      constructor
      · intro h
        exact ⟨a, middle, rfl, h⟩
      · rintro ⟨_, _, h, hf⟩
        cases h
        exact hf

/-- Tokens split where their numbers do. -/
theorem exists_split_of_numerals {used : List String} {first second : List Nat}
    (h : List.Forall₂ IsNumeral used (first ++ second)) :
    ∃ used₁ used₂, used = used₁ ++ used₂ ∧ List.Forall₂ IsNumeral used₁ first ∧
      List.Forall₂ IsNumeral used₂ second :=
  ⟨used.take first.length, used.drop first.length, (List.take_append_drop ..).symm,
    List.forall₂_take_append used first second h, List.forall₂_drop_append used first second h⟩

theorem reads_nothing {x : Reading α} {P : α → Prop}
    (h : ∀ cursor a cursor', x.run cursor = .ok (a, cursor') ↔ cursor' = cursor ∧ P a) :
    Reads x fun a numbers => P a ∧ numbers = [] := by
  intro position tokens a cursor
  rw [h]
  constructor
  · rintro ⟨rfl, ha⟩
    exact ⟨[], [], rfl, rfl, List.Forall₂.nil, ha, rfl⟩
  · rintro ⟨used, _, rfl, hposition, hused, ha, rfl⟩
    cases hused
    obtain ⟨position', rest⟩ := cursor
    exact ⟨congrArg (Cursor.mk · rest) hposition, ha⟩

theorem reads_pure (a : α) : Reads (pure a) fun b numbers => b = a ∧ numbers = [] := by
  refine reads_nothing fun cursor b cursor' => ?_
  rw [StateT.run_pure]
  constructor
  · intro h
    cases h
    exact ⟨rfl, rfl⟩
  · rintro ⟨rfl, rfl⟩
    rfl

theorem reads_bind {x : Reading α} {f : α → Reading β} {R : α → List Nat → Prop}
    {S : α → β → List Nat → Prop} (hx : Reads x R) (hf : ∀ a, Reads (f a) (S a)) :
    Reads (x >>= f) fun b numbers =>
      ∃ a first second, numbers = first ++ second ∧ R a first ∧ S a b second := by
  intro position tokens b cursor
  rw [run_bind_eq_ok]
  constructor
  · rintro ⟨a, middle, hrun, hrun'⟩
    obtain ⟨used, first, htokens, hposition, hused, ha⟩ := (hx ..).mp hrun
    obtain ⟨used', second, htokens', hposition', hused', hb⟩ := (hf a ..).mp hrun'
    refine ⟨used ++ used', first ++ second, ?_, ?_, ?_, a, first, second, rfl, ha, hb⟩
    · rw [htokens, htokens', List.append_assoc]
    · rw [hposition', hposition, List.length_append, Nat.add_assoc]
    · exact List.rel_append hused hused'
  · rintro ⟨used, _, rfl, hposition, hused, a, first, second, rfl, ha, hb⟩
    obtain ⟨used₁, used₂, rfl, hused₁, hused₂⟩ := exists_split_of_numerals hused
    refine ⟨a, ⟨position + used₁.length, used₂ ++ cursor.rest⟩, (hx ..).mpr ?_, (hf a ..).mpr ?_⟩
    · exact ⟨used₁, first, List.append_assoc .., rfl, hused₁, ha⟩
    · refine ⟨used₂, second, rfl, ?_, hused₂, hb⟩
      rw [hposition, List.length_append, Nat.add_assoc]

theorem reads_unless {c : Prop} [Decidable c] (why : Malformation) (a : α) :
    Reads (if c then refuse why else pure a) fun b numbers => (¬c ∧ b = a) ∧ numbers = [] := by
  refine reads_nothing fun cursor b cursor' => ?_
  split
  · next hc =>
      constructor
      · intro h
        cases h
      · rintro ⟨-, hno, -⟩
        exact absurd hc hno
  · next hc =>
      rw [StateT.run_pure]
      constructor
      · intro h
        cases h
        exact ⟨rfl, hc, rfl⟩
      · rintro ⟨rfl, -, rfl⟩
        rfl

theorem reads_reserve (bytes count : Nat) :
    Reads (reserve bytes count) fun _ numbers => count * bytes < 2 ^ 63 ∧ numbers = [] := by
  refine reads_nothing fun cursor b cursor' => ?_
  unfold reserve
  split
  · next hroom =>
      rw [StateT.run_pure]
      constructor
      · intro h
        cases h
        exact ⟨rfl, hroom⟩
      · rintro ⟨rfl, -⟩
        rfl
  · next hroom =>
      constructor
      · intro h
        cases h
      · rintro ⟨-, h⟩
        exact absurd h hroom

theorem run_number_nil (what : Quantity) (position : Nat) :
    (number what).run ⟨position, []⟩ = .error (.malformed (position + 1) (.missing what)) := rfl

theorem run_number_cons (what : Quantity) (position : Nat) (token : String)
    (rest : List String) :
    (number what).run ⟨position, token :: rest⟩ =
      match Text.numeral? token with
      | some n => .ok (n, ⟨position + 1, rest⟩)
      | none => .error (.malformed (position + 1) (.notNumber what token)) := by
  cases hnumeral : Text.numeral? token with
  | none => simp [number, Reading.token, hnumeral, refuse]; rfl
  | some n => simp [number, Reading.token, hnumeral]; rfl

theorem reads_number (what : Quantity) : Reads (number what) fun n numbers => numbers = [n] := by
  intro position tokens n cursor
  cases tokens with
  | nil =>
      rw [run_number_nil]
      constructor
      · intro h
        cases h
      · rintro ⟨used, _, htokens, -, hused, rfl⟩
        cases hused
        cases htokens
  | cons token rest =>
      rw [run_number_cons]
      constructor
      · intro h
        cases hnumeral : Text.numeral? token with
        | none =>
            rw [hnumeral] at h
            cases h
        | some m =>
            rw [hnumeral] at h
            cases h
            have hm := Text.numeral?_eq_some_iff.mp hnumeral
            exact ⟨[token], [n], rfl, rfl, List.Forall₂.cons hm List.Forall₂.nil, rfl⟩
      · rintro ⟨used, _, htokens, hposition, hused, rfl⟩
        obtain ⟨position', rest'⟩ := cursor
        cases hused with
        | cons hn hnil =>
            cases hnil
            cases htokens
            rw [Text.numeral?_eq_some_iff.mpr hn]
            subst hposition
            rfl

/-- A counted sequence has the numbers of its entries one after another. -/
theorem reads_many {one : Reading α} {P : α → Prop} {spell : α → List Nat}
    (hone : Reads one fun a numbers => P a ∧ numbers = spell a) (count : Nat) :
    Reads (many count one) fun l numbers =>
      (l.length = count ∧ ∀ a ∈ l, P a) ∧ numbers = l.flatMap spell := by
  have hafter : ∀ done : List α, Reads (manyAfter one count done) fun l numbers =>
      ∃ l', l = done.reverse ++ l' ∧ (l'.length = count ∧ ∀ a ∈ l', P a) ∧
        numbers = l'.flatMap spell := by
    induction count with
    | zero =>
        intro done
        refine (reads_pure done.reverse).congr fun l numbers => ?_
        constructor
        · rintro ⟨rfl, rfl⟩
          exact ⟨[], by simp, by simp, rfl⟩
        · rintro ⟨l', rfl, ⟨hlength, -⟩, rfl⟩
          obtain rfl := List.eq_nil_of_length_eq_zero hlength
          simp
    | succ count ih =>
        intro done
        refine (reads_bind hone fun a => ih (a :: done)).congr fun l numbers => ?_
        constructor
        · rintro ⟨a, _, _, rfl, ⟨ha, rfl⟩, l', rfl, ⟨hlength, hl'⟩, rfl⟩
          refine ⟨a :: l', by simp, ⟨by simp [hlength], ?_⟩, by simp⟩
          intro b hb
          rcases List.mem_cons.mp hb with rfl | hb
          · exact ha
          · exact hl' b hb
        · rintro ⟨l', rfl, ⟨hlength, hl'⟩, rfl⟩
          obtain ⟨a, l', rfl⟩ := List.exists_cons_of_length_eq_add_one hlength
          have ha : P a := hl' a (by simp)
          refine ⟨a, spell a, l'.flatMap spell, by simp, ⟨ha, rfl⟩, l', by simp, ⟨?_, ?_⟩, rfl⟩
          · simpa using hlength
          · intro b hb
            exact hl' b (List.mem_cons_of_mem a hb)
  exact (hafter []).congr fun l numbers => by simp

/-! ## The parts of an instance -/

/-- The numbers of a row: how many ids it has, and the ids, counted from one. -/
def rowNumbers (row : List Nat) : List Nat := row.length :: row.map (· + 1)

/-- The numbers of an instance. -/
def wholeNumbers (elementCount subsetCount : Nat) (costs : List Nat) (rows : List (List Nat)) :
    List Nat :=
  elementCount :: subsetCount :: (costs ++ rows.flatMap rowNumbers)

/-- There are more numbers than costs, than rows, and than ids in any row. -/
theorem lengths_lt_wholeNumbers (elementCount subsetCount : Nat) (costs : List Nat)
    (rows : List (List Nat)) :
    costs.length < (wholeNumbers elementCount subsetCount costs rows).length ∧
      rows.length < (wholeNumbers elementCount subsetCount costs rows).length ∧
      ∀ row ∈ rows, row.length < (wholeNumbers elementCount subsetCount costs rows).length := by
  have hrows : rows.length ≤ (rows.flatMap rowNumbers).length ∧
      ∀ row ∈ rows, row.length ≤ (rows.flatMap rowNumbers).length := by
    induction rows with
    | nil => simp
    | cons first rows ih =>
        obtain ⟨hlength, hrow⟩ := ih
        rw [List.flatMap_cons, List.length_append, rowNumbers, List.length_cons, List.length_cons,
          List.length_map]
        refine ⟨by omega, fun row hmem => ?_⟩
        rcases List.mem_cons.mp hmem with rfl | hmem
        · omega
        · have hle := hrow row hmem
          omega
  rw [wholeNumbers, List.length_cons, List.length_cons, List.length_append]
  refine ⟨by omega, by omega, fun row hmem => ?_⟩
  have hle := hrows.2 row hmem
  omega

theorem reads_member (subsetCount : Nat) :
    Reads (member subsetCount) fun s numbers => s < subsetCount ∧ numbers = [s + 1] := by
  refine (reads_bind (reads_number .member) fun id =>
    reads_unless (.strayId id subsetCount) (id - 1)).congr fun s numbers => ?_
  constructor
  · rintro ⟨id, _, _, rfl, rfl, ⟨hid, rfl⟩, rfl⟩
    refine ⟨by omega, ?_⟩
    rw [show id - 1 + 1 = id by omega]
    rfl
  · rintro ⟨hs, rfl⟩
    exact ⟨s + 1, [s + 1], [], rfl, rfl, ⟨by omega, rfl⟩, rfl⟩

theorem reads_row (subsetCount : Nat) :
    Reads (row subsetCount) fun row numbers =>
      (row.length * 8 < 2 ^ 63 ∧ ∀ s ∈ row, s < subsetCount) ∧ numbers = rowNumbers row := by
  refine (reads_bind (reads_number .rowLength) fun count => reads_bind (reads_reserve 8 count)
    fun _ => reads_many (reads_member subsetCount) count).congr fun row numbers => ?_
  constructor
  · rintro ⟨count, _, _, rfl, rfl, -, _, _, rfl, ⟨hroom, rfl⟩, ⟨rfl, hrow⟩, rfl⟩
    refine ⟨⟨hroom, hrow⟩, ?_⟩
    rw [rowNumbers, List.map_eq_flatMap]
    rfl
  · rintro ⟨⟨hroom, hrow⟩, rfl⟩
    refine ⟨row.length, _, _, rfl, rfl, (), [], _, rfl, ⟨hroom, rfl⟩, ⟨rfl, hrow⟩, ?_⟩
    exact List.map_eq_flatMap ..

/-- A whole instance has the numbers of its parts, and there is room for all of them. -/
theorem reads_whole :
    Reads whole fun (elementCount, subsetCount, costs, rows) numbers =>
      (costs.length = subsetCount ∧ rows.length = elementCount) ∧
        (subsetCount * 8 < 2 ^ 63 ∧ elementCount * 24 < 2 ^ 63) ∧
        (∀ row ∈ rows, row.length * 8 < 2 ^ 63 ∧ ∀ s ∈ row, s < subsetCount) ∧
        numbers = wholeNumbers elementCount subsetCount costs rows := by
  have hcost : Reads (number .cost) fun n numbers => True ∧ numbers = [n] :=
    (reads_number .cost).congr fun n numbers => by simp
  refine (reads_bind (reads_number .elementCount) fun elementCount =>
    reads_bind (reads_number .subsetCount) fun subsetCount =>
    reads_bind (reads_reserve 8 subsetCount) fun _ =>
    reads_bind (reads_many hcost subsetCount) fun costs =>
    reads_bind (reads_reserve 24 elementCount) fun _ =>
    reads_bind (reads_many (reads_row subsetCount) elementCount) fun rows =>
    reads_pure (elementCount, subsetCount, costs, rows)).congr fun result numbers => ?_
  obtain ⟨elementCount, subsetCount, costs, rows⟩ := result
  constructor
  · rintro ⟨_, _, _, rfl, rfl, _, _, _, rfl, rfl, -, _, _, rfl, ⟨hroom, rfl⟩, _, _, _, rfl,
      ⟨⟨hcosts, -⟩, rfl⟩, -, _, _, rfl, ⟨hroom', rfl⟩, _, _, _, rfl, ⟨⟨hlength, hrows⟩, rfl⟩,
      hresult, rfl⟩
    cases hresult
    refine ⟨⟨hcosts, hlength⟩, ⟨hroom, hroom'⟩, hrows, ?_⟩
    simp [wholeNumbers]
  · rintro ⟨⟨hcosts, hlength⟩, ⟨hroom, hroom'⟩, hrows, rfl⟩
    refine ⟨elementCount, [elementCount], _, rfl, rfl, subsetCount, [subsetCount], _, rfl, rfl,
      (), [], _, rfl, ⟨hroom, rfl⟩, costs, costs, _, rfl, ⟨⟨hcosts, by simp⟩, by simp⟩,
      (), [], _, rfl, ⟨hroom', rfl⟩, rows, rows.flatMap rowNumbers, [],
      (List.append_nil _).symm,
      ⟨⟨hlength, hrows⟩, rfl⟩, rfl, rfl⟩

end SetCover.Reading
