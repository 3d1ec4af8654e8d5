import SetCover.Proofs.Instance.Reading

/-!
# Where readers fail

Some faults of a reader are found out from the numbers read so far: there is no room for as many
entries, or no subset has this id. `FailsAfter x fault B` says that the reader `x` fails in such a
way exactly after numerals of number sequences that satisfy `B`, whatever comes after them. A fault
may report the number of tokens asked for. As for what readers accept, there is one rule for each
way in which they are built.

* `failsAfter_never`, `failsAfter_bind`, `failsAfter_many`.
* `fault_of_many`: what all faults of a counted sequence have in common.
-/

namespace SetCover.Reading

open Text (IsNumeral)

variable {α β : Type} {fault : Nat → Fault}

/-- The reader fails with `fault` exactly where numerals come first whose numbers satisfy `B`, and
reports the number of tokens up to the last of them, if the fault has a place for it. -/
def FailsAfter (x : Reading α) (fault : Nat → Fault) (B : List Nat → Prop) : Prop :=
  ∀ position tokens q, x.run ⟨position, tokens⟩ = .error (fault q) ↔
    ∃ used rest numbers, tokens = used ++ rest ∧ fault q = fault (position + used.length) ∧
      List.Forall₂ IsNumeral used numbers ∧ B numbers

theorem FailsAfter.congr {x : Reading α} {B C : List Nat → Prop} (h : FailsAfter x fault B)
    (hBC : ∀ numbers, B numbers ↔ C numbers) : FailsAfter x fault C := by
  have hB : B = C := funext fun numbers => propext (hBC numbers)
  exact hB ▸ h

theorem run_bind_eq_error {x : Reading α} {f : α → Reading β} {start : Cursor} {fault : Fault} :
    (x >>= f).run start = .error fault ↔ x.run start = .error fault ∨
      ∃ a middle, x.run start = .ok (a, middle) ∧ (f a).run middle = .error fault := by
  rw [StateT.run_bind]
  cases hx : x.run start with
  | error fault' =>
      constructor
      · intro h
        cases h
        exact Or.inl rfl
      · intro h
        rcases h with h | ⟨a, middle, h, _⟩
        · cases h
          rfl
        · cases h
  | ok result =>
      obtain ⟨a, middle⟩ := result
      constructor
      · intro h
        exact Or.inr ⟨a, middle, rfl, h⟩
      · intro h
        rcases h with h | ⟨_, _, h, hf⟩
        · cases h
        · cases h
          exact hf

/-! ## One rule for each construct -/

theorem failsAfter_never {x : Reading α} (h : ∀ cursor q, x.run cursor ≠ .error (fault q)) :
    FailsAfter x fault fun _ => False := by
  intro position tokens q
  constructor
  · intro hrun
    exact absurd hrun (h _ q)
  · intro ⟨_, _, _, _, _, _, hfalse⟩
    exact hfalse.elim

theorem failsAfter_pure (a : α) : FailsAfter (pure a) fault fun _ => False := by
  apply failsAfter_never
  intro cursor q hrun
  cases hrun

theorem failsAfter_bind {x : Reading α} {f : α → Reading β} {R : α → List Nat → Prop}
    {B : List Nat → Prop} {C : α → List Nat → Prop} (hreads : Reads x R)
    (hx : FailsAfter x fault B) (hf : ∀ a, FailsAfter (f a) fault (C a)) :
    FailsAfter (x >>= f) fault fun numbers => B numbers ∨
      ∃ a first second, numbers = first ++ second ∧ R a first ∧ C a second := by
  intro position tokens q
  rw [run_bind_eq_error]
  constructor
  · intro h
    rcases h with hrun | ⟨a, middle, hrun, hrun'⟩
    · obtain ⟨used, rest, numbers, htokens, hq, hused, hB⟩ := (hx ..).mp hrun
      exact ⟨used, rest, numbers, htokens, hq, hused, Or.inl hB⟩
    · obtain ⟨used, first, htokens, hmiddle, hused, ha⟩ := (hreads ..).mp hrun
      obtain ⟨used', rest, second, htokens', hq, hused', hC⟩ := (hf a ..).mp hrun'
      refine ⟨used ++ used', rest, first ++ second, ?_, ?_, List.rel_append hused hused',
        Or.inr ⟨a, first, second, rfl, ha, hC⟩⟩
      · rw [htokens, htokens', List.append_assoc]
      · rw [hq, hmiddle, List.length_append, Nat.add_assoc]
  · intro h
    obtain ⟨used, rest, numbers, rfl, hq, hused, hB | ⟨a, first, second, rfl, ha, hC⟩⟩ := h
    · exact Or.inl ((hx ..).mpr ⟨used, rest, numbers, rfl, hq, hused, hB⟩)
    · obtain ⟨used₁, used₂, rfl, hused₁, hused₂⟩ := exists_split_of_numerals hused
      rw [List.length_append, ← Nat.add_assoc] at hq
      refine Or.inr ⟨a, ⟨position + used₁.length, used₂ ++ rest⟩, (hreads ..).mpr ?_, ?_⟩
      · exact ⟨used₁, first, List.append_assoc .., rfl, hused₁, ha⟩
      · exact (hf a ..).mpr ⟨used₂, rest, second, rfl, hq, hused₂, hC⟩

/-- A counted sequence fails in one of its entries, after all entries before it. -/
theorem failsAfter_many {one : Reading α} {P : α → Prop} {spell : α → List Nat}
    {B : List Nat → Prop} (hreads : Reads one fun a numbers => P a ∧ numbers = spell a)
    (hone : FailsAfter one fault B) (count : Nat) :
    FailsAfter (many count one) fault fun numbers => ∃ (l : List α) (last : List Nat),
      l.length < count ∧ (∀ a ∈ l, P a) ∧ B last ∧ numbers = l.flatMap spell ++ last := by
  have hafter : ∀ done : List α, FailsAfter (manyAfter one count done) fault fun numbers =>
      ∃ (l : List α) (last : List Nat), l.length < count ∧ (∀ a ∈ l, P a) ∧ B last ∧
        numbers = l.flatMap spell ++ last := by
    induction count with
    | zero =>
        intro done
        apply (failsAfter_pure done.reverse).congr
        simp
    | succ count ih =>
        intro done
        apply (failsAfter_bind hreads hone fun a => ih (a :: done)).congr
        intro numbers
        constructor
        · intro h
          rcases h with hB | ⟨a, _, _, rfl, ⟨ha, rfl⟩, l, last, hlength, hl, hB, rfl⟩
          · exact ⟨[], numbers, Nat.succ_pos count, by simp, hB, rfl⟩
          · refine ⟨a :: l, last, Nat.succ_lt_succ hlength, ?_, hB, by simp⟩
            intro b hb
            rcases List.mem_cons.mp hb with rfl | hb
            · exact ha
            · exact hl b hb
        · intro h
          obtain ⟨l, last, hlength, hl, hB, rfl⟩ := h
          cases l with
          | nil => exact Or.inl hB
          | cons a l =>
              refine Or.inr ⟨a, spell a, l.flatMap spell ++ last, by simp, ⟨hl a (by simp), rfl⟩,
                l, last, Nat.lt_of_succ_lt_succ hlength, ?_, hB, rfl⟩
              intro b hb
              exact hl b (List.mem_cons_of_mem a hb)
  exact hafter []

/-- Every fault of a counted sequence is a fault of an entry. -/
theorem fault_of_many {one : Reading α} {P : Fault → Prop}
    (hone : ∀ cursor fault, one.run cursor = .error fault → P fault) (count : Nat) :
    ∀ cursor fault, (many count one).run cursor = .error fault → P fault := by
  have hafter : ∀ (done : List α) cursor fault,
      (manyAfter one count done).run cursor = .error fault → P fault := by
    induction count with
    | zero =>
        intro done cursor fault hrun
        cases hrun
    | succ count ih =>
        intro done cursor fault hrun
        rcases run_bind_eq_error.mp hrun with hrun | ⟨a, middle, _, hrun⟩
        · exact hone cursor fault hrun
        · exact ih (a :: done) middle fault hrun
  exact hafter []

end SetCover.Reading
