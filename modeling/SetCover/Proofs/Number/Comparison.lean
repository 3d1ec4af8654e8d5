import SetCover.Arithmetic

/-!
# Comparisons of floating-point numbers

Comparisons of floating-point numbers are made of one comparison of their parts, which has no
outcome where one of the numbers is undefined. So a comparison that fails does not say that the
opposite one holds, and a check of a parameter that is written as a failed comparison also finds
the undefined number.

* `exists_compare`, `compare_notANumber`: when parts can be compared, and in which two ways.
* `lt_iff_of_finite`, `le_iff_of_finite`: positive numbers compare by exponent and mantissa.
* `not_le_iff`, `le_and_le_iff`: what it means that a number is not at most another one, and that
  it lies between two others.
* `not_lt_of_beq`: equal numbers are not less, also where they are zeros of different signs.
* `isFinite_eq`: a number is finite, infinite or undefined.
-/

namespace SetCover.Comparison

open Float.Model (UnpackedFloat)

variable {a b : UnpackedFloat} {x y : Float}

/-! ## Parts -/

theorem compare_notANumber (h : a.isNaN = true) (b : UnpackedFloat) :
    a.compare b = none ∧ b.compare a = none := by
  cases a with
  | notANumber => cases b <;> exact ⟨rfl, rfl⟩
  | infinity _ => cases h
  | zero _ => cases h
  | finite _ _ _ _ => cases h

/-- Numbers that are not undefined compare, and the other way round with the opposite outcome. -/
theorem exists_compare (ha : a.isNaN = false) (hb : b.isNaN = false) :
    ∃ o, a.compare b = some o ∧ b.compare a = some o.swap := by
  cases a with
  | notANumber => cases ha
  | infinity s =>
      cases b with
      | notANumber => cases hb
      | infinity t => cases s <;> cases t <;> exact ⟨_, rfl, rfl⟩
      | zero _ => cases s <;> exact ⟨_, rfl, rfl⟩
      | finite _ _ _ _ => cases s <;> exact ⟨_, rfl, rfl⟩
  | zero s =>
      cases b with
      | notANumber => cases hb
      | infinity t => cases t <;> exact ⟨_, rfl, rfl⟩
      | zero _ => exact ⟨_, rfl, rfl⟩
      | finite t _ _ _ => cases t <;> exact ⟨_, rfl, rfl⟩
  | finite s m e _ =>
      cases b with
      | notANumber => cases hb
      | infinity t => cases t <;> exact ⟨_, rfl, rfl⟩
      | zero _ => cases s <;> exact ⟨_, rfl, rfl⟩
      | finite t n f _ =>
          -- of one sign, the exponents decide, and the mantissas where those are equal
          have hswap : (compare f e).then (compare n m) =
              ((compare e f).then (compare m n)).swap := by
            rw [Ordering.swap_then, ← Std.OrientedOrd.eq_swap, ← Std.OrientedOrd.eq_swap]
          cases s <;> cases t
          · exact ⟨_, rfl, congrArg (fun o : Ordering => some o.swap) hswap⟩
          · exact ⟨_, rfl, rfl⟩
          · exact ⟨_, rfl, rfl⟩
          · exact ⟨_, rfl, congrArg some hswap⟩

/-- What a comparison says, it says the other way round as well. -/
theorem compare_eq_some {o : Ordering} (h : a.compare b = some o) :
    b.compare a = some o.swap := by
  cases ha : a.isNaN with
  | true => rw [(compare_notANumber ha b).1] at h; cases h
  | false =>
      cases hb : b.isNaN with
      | true => rw [(compare_notANumber hb a).2] at h; cases h
      | false =>
          obtain ⟨o', ho, hswap⟩ := exists_compare ha hb
          rw [ho] at h
          cases h
          exact hswap

/-! ## Numbers -/

theorem lt_iff_compare : x < y ↔ x.toModel.unpack.compare y.toModel.unpack = some .lt := by
  show decide (x.toModel < y.toModel) = true ↔ _
  rw [decide_eq_true_iff]
  show (x.toModel.unpack.compare y.toModel.unpack == some Ordering.lt) = true ↔ _
  rw [beq_iff_eq]

theorem le_iff_compare :
    x ≤ y ↔ ∃ o, x.toModel.unpack.compare y.toModel.unpack = some o ∧ o.isLE = true := by
  show decide (x.toModel ≤ y.toModel) = true ↔ _
  rw [decide_eq_true_iff]
  show Option.any _ (x.toModel.unpack.compare y.toModel.unpack) = true ↔ _
  rw [Option.any_eq_true]

theorem beq_iff_compare :
    (x == y) = true ↔ x.toModel.unpack.compare y.toModel.unpack = some .eq := by
  show (x.toModel.unpack.compare y.toModel.unpack == some Ordering.eq) = true ↔ _
  rw [beq_iff_eq]

section Finite

variable {m n : Nat} {e f : Int} {hm : 0 < m} {hn : 0 < n}

theorem compare_of_finite (hx : x.toModel.unpack = .finite .positive m e hm)
    (hy : y.toModel.unpack = .finite .positive n f hn) :
    x.toModel.unpack.compare y.toModel.unpack = some ((compare e f).then (compare m n)) := by
  rw [hx, hy]
  rfl

theorem lt_iff_of_finite (hx : x.toModel.unpack = .finite .positive m e hm)
    (hy : y.toModel.unpack = .finite .positive n f hn) : x < y ↔ e < f ∨ e = f ∧ m < n := by
  rw [lt_iff_compare, compare_of_finite hx hy, Option.some.injEq, Ordering.then_eq_lt,
    Int.compare_eq_lt, Int.compare_eq_eq, Nat.compare_eq_lt]

theorem le_iff_of_finite (hx : x.toModel.unpack = .finite .positive m e hm)
    (hy : y.toModel.unpack = .finite .positive n f hn) : x ≤ y ↔ e < f ∨ e = f ∧ m ≤ n := by
  simp only [le_iff_compare, compare_of_finite hx hy, Option.some.injEq, exists_eq_left',
    Ordering.isLE_then_iff_or, Int.compare_eq_lt, Int.compare_eq_eq, Nat.isLE_compare]

end Finite

/-- A number that is not at most another one is more than that, or one of the two is undefined. -/
theorem not_le_iff : ¬ x ≤ y ↔ x.isNaN = true ∨ y.isNaN = true ∨ y < x := by
  rw [le_iff_compare, lt_iff_compare]
  cases hx : x.isNaN with
  | true => simp only [(compare_notANumber hx _).1, reduceCtorEq, false_and, exists_false,
      not_false_eq_true, true_or]
  | false =>
      cases hy : y.isNaN with
      | true => simp only [(compare_notANumber hy _).2, reduceCtorEq, false_and, exists_false,
          not_false_eq_true, true_or, or_true]
      | false =>
          obtain ⟨o, ho, hswap⟩ := exists_compare hx hy
          rw [ho, hswap]
          cases o <;> simp

/-- A number lies between two others, unless it is undefined or less than one or more than the
other. -/
theorem le_and_le_iff {low high : Float} (hlow : low.isNaN = false) (hhigh : high.isNaN = false) :
    low ≤ x ∧ x ≤ high ↔ ¬ (x.isNaN = true ∨ x < low ∨ high < x) := by
  have hle : low ≤ x ↔ ¬ (x.isNaN = true ∨ x < low) := by
    rw [← Classical.not_not (a := low ≤ x), not_le_iff, hlow]
    simp only [Bool.false_eq_true, false_or]
  have hge : x ≤ high ↔ ¬ (x.isNaN = true ∨ high < x) := by
    rw [← Classical.not_not (a := x ≤ high), not_le_iff, hhigh]
    simp only [Bool.false_eq_true, false_or]
  rw [hle, hge]
  constructor
  · rintro ⟨h₁, h₂⟩ (hnan | hlt | hgt)
    · exact h₁ (Or.inl hnan)
    · exact h₁ (Or.inr hlt)
    · exact h₂ (Or.inr hgt)
  · intro h
    constructor
    · rintro (hnan | hlt)
      · exact h (Or.inl hnan)
      · exact h (Or.inr (Or.inl hlt))
    · rintro (hnan | hgt)
      · exact h (Or.inl hnan)
      · exact h (Or.inr (Or.inr hgt))

/-- Equal numbers are not less. -/
theorem not_lt_of_beq (h : (x == y) = true) : ¬ y < x := by
  rw [lt_iff_compare, compare_eq_some (beq_iff_compare.mp h)]
  decide

theorem beq_symm (h : (x == y) = true) : (y == x) = true :=
  beq_iff_compare.mpr (compare_eq_some (beq_iff_compare.mp h))

theorem not_le_of_lt (h : x < y) : ¬ y ≤ x := by
  rw [le_iff_compare, compare_eq_some (lt_iff_compare.mp h)]
  simp

/-- A number is finite, infinite or undefined. -/
theorem isFinite_eq (x : Float) : x.isFinite = (!x.isNaN && !x.isInf) := by
  show x.toModel.unpack.isFinite = (!x.toModel.unpack.isNaN && !x.toModel.unpack.isInf)
  cases x.toModel.unpack <;> rfl

end SetCover.Comparison
