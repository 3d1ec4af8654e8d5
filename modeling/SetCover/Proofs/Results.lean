import Mathlib.Data.List.Forall2

/-!
# Results of parts and of the whole

What a computation in two steps, or in one step for each entry of a list, gives is read off its
steps: a success needs all of them, and the error is that of the first step that fails.

* `exists_ok_of_any`: a success that is found by evaluation.
* `bind_eq_ok_iff`, `bind_eq_error_iff`: two steps.
* `forall₂_of_mapM`, `mapM_append_eq_ok_iff`, `mapM_eq_error_iff`, `exists_mapM`: a step for each
  entry.
-/

namespace SetCover

variable {ε α β : Type} {f : α → Except ε β}

/-- What is checked of a success after all gives the success as well. -/
theorem exists_ok_of_any {x : Except ε α} {p : α → Bool} (h : x.toOption.any p = true) :
    ∃ a, x = .ok a ∧ p a = true := by
  cases x with
  | error e => cases h
  | ok a => exact ⟨a, rfl, h⟩

/-! ## Two steps -/

theorem bind_eq_ok_iff {x : Except ε α} {b : β} :
    x >>= f = .ok b ↔ ∃ a, x = .ok a ∧ f a = .ok b := by
  cases x with
  | error e =>
      constructor
      · intro h
        cases h
      · intro ⟨a, h, _⟩
        cases h
  | ok a =>
      constructor
      · intro h
        exact ⟨a, rfl, h⟩
      · intro ⟨a', ha, hf⟩
        cases ha
        exact hf

theorem bind_eq_error_iff {x : Except ε α} {e : ε} :
    x >>= f = .error e ↔ x = .error e ∨ ∃ a, x = .ok a ∧ f a = .error e := by
  cases x with
  | error e' =>
      constructor
      · intro h
        cases h
        exact .inl rfl
      · intro h
        rcases h with h | ⟨a, h, _⟩
        · cases h
          rfl
        · cases h
  | ok a =>
      constructor
      · intro h
        exact .inr ⟨a, rfl, h⟩
      · intro h
        rcases h with h | ⟨a', ha, hf⟩
        · cases h
        · cases ha
          exact hf

/-! ## A step for each entry -/

theorem forall₂_of_mapM {xs : List α} {ys : List β} (h : xs.mapM f = .ok ys) :
    List.Forall₂ (fun x y => f x = .ok y) xs ys := by
  induction xs generalizing ys with
  | nil =>
      cases h
      exact .nil
  | cons x xs ih =>
      rw [List.mapM_cons, bind_eq_ok_iff] at h
      obtain ⟨y, hx, h⟩ := h
      rw [bind_eq_ok_iff] at h
      obtain ⟨more, hxs, h⟩ := h
      cases h
      exact .cons hx (ih hxs)

theorem mapM_append_eq_ok_iff {xs ys : List α} {blocks : List β} :
    (xs ++ ys).mapM f = .ok blocks ↔
      ∃ front back, xs.mapM f = .ok front ∧ ys.mapM f = .ok back ∧ blocks = front ++ back := by
  rw [List.mapM_append, bind_eq_ok_iff]
  constructor
  · intro ⟨front, hx, h⟩
    obtain ⟨back, hy, hblocks⟩ := bind_eq_ok_iff.mp h
    cases hblocks
    exact ⟨front, back, hx, hy, rfl⟩
  · intro ⟨front, back, hx, hy, hblocks⟩
    refine ⟨front, hx, bind_eq_ok_iff.mpr ⟨back, hy, ?_⟩⟩
    rw [hblocks]
    rfl

/-- The first error in the order of the list is the error of the whole. -/
theorem mapM_eq_error_iff {xs : List α} {e : ε} : xs.mapM f = .error e ↔
    ∃ before x after, xs = before ++ x :: after ∧ (∀ y ∈ before, ∃ b, f y = .ok b) ∧
      f x = .error e := by
  induction xs with
  | nil =>
      constructor
      · intro h
        cases h
      · intro ⟨before, x, after, h, _⟩
        exact absurd h.symm (List.append_ne_nil_of_right_ne_nil before (List.cons_ne_nil x after))
  | cons x xs ih =>
      rw [List.mapM_cons]
      constructor
      · intro h
        rcases bind_eq_error_iff.mp h with hx | ⟨b, hx, h⟩
        · exact ⟨[], x, xs, rfl, fun y hy => absurd hy List.not_mem_nil, hx⟩
        · rcases bind_eq_error_iff.mp h with hxs | ⟨bs, _, h⟩
          · obtain ⟨before, x', after, rfl, hbefore, hx'⟩ := ih.mp hxs
            exact ⟨x :: before, x', after, rfl, List.forall_mem_cons.mpr ⟨⟨b, hx⟩, hbefore⟩, hx'⟩
          · cases h
      · intro ⟨before, x', after, h, hbefore, hx'⟩
        apply bind_eq_error_iff.mpr
        cases before with
        | nil =>
            cases h
            exact .inl hx'
        | cons y before =>
            cases h
            obtain ⟨⟨b, hx⟩, hbefore⟩ := List.forall_mem_cons.mp hbefore
            have hxs := ih.mpr ⟨before, x', after, rfl, hbefore, hx'⟩
            exact .inr ⟨b, hx, bind_eq_error_iff.mpr (.inl hxs)⟩

theorem exists_mapM {xs : List α} (h : ∀ x ∈ xs, ∃ y, f x = .ok y) :
    ∃ ys, xs.mapM f = .ok ys := by
  cases hxs : xs.mapM f with
  | ok ys => exact ⟨ys, rfl⟩
  | error e =>
      obtain ⟨before, x, after, rfl, _, herror⟩ := mapM_eq_error_iff.mp hxs
      obtain ⟨y, hy⟩ := h x (List.mem_append_right before List.mem_cons_self)
      rw [hy] at herror
      cases herror

end SetCover
