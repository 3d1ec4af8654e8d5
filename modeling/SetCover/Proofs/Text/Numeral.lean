import SetCover.Text.Numeral

/-!
# Numerals

What a numeral is, apart from how it is read: an optional plus sign and digits, at least one, whose
value has 64 bits. Leading zeros are allowed.

* `IsNumeral`: a token is a numeral of a number.
* `numeral?_eq_some_iff`: reading a token finds the number that it is a numeral of.
* `isNumeral_toString`: the decimal digits of a number are a numeral of it.
-/

namespace SetCover.Text

/-- The token is a numeral of this number of 64 bits. -/
def IsNumeral (token : String) (n : Nat) : Prop :=
  ∃ digits : List Char, digits ≠ [] ∧ (∀ c ∈ digits, c.isDigit = true) ∧
    (token.toList = digits ∨ token.toList = '+' :: digits) ∧
    Nat.ofDigitChars 10 digits 0 = n ∧ n < 2 ^ 64

theorem dropPlus_of_digits {digits : List Char} (h : ∀ c ∈ digits, c.isDigit = true) :
    dropPlus digits = digits := by
  unfold dropPlus
  split
  · next rest =>
      have hplus : ('+' : Char).isDigit = true := h '+' (by simp)
      exact absurd hplus (by decide)
  · rfl

theorem eq_dropPlus (cs : List Char) : cs = dropPlus cs ∨ cs = '+' :: dropPlus cs := by
  unfold dropPlus
  split
  · exact Or.inr rfl
  · exact Or.inl rfl

/-- Reading a token finds the number that it is a numeral of. -/
theorem numeral?_eq_some_iff {token : String} {n : Nat} :
    numeral? token = some n ↔ IsNumeral token n := by
  have hvalue : ∀ digits, digitsValue digits = Nat.ofDigitChars 10 digits 0 := fun _ => rfl
  simp only [numeral?, hvalue, Option.ite_none_right_eq_some, Bool.and_eq_true,
    Bool.not_eq_true', List.isEmpty_eq_false_iff, List.all_eq_true, decide_eq_true_eq,
    Option.some.injEq]
  constructor
  · rintro ⟨⟨⟨hne, hdigits⟩, hlt⟩, rfl⟩
    exact ⟨_, hne, hdigits, eq_dropPlus token.toList, rfl, hlt⟩
  · rintro ⟨digits, hne, hdigits, htoken, rfl, hlt⟩
    have hdrop : dropPlus token.toList = digits := by
      rcases htoken with htoken | htoken
      · rw [htoken, dropPlus_of_digits hdigits]
      · rw [htoken]
        rfl
    rw [hdrop]
    exact ⟨⟨⟨hne, hdigits⟩, hlt⟩, rfl⟩

/-- The decimal digits of a number are a numeral of it. -/
theorem isNumeral_toString {n : Nat} (h : n < 2 ^ 64) : IsNumeral (toString n) n := by
  refine ⟨Nat.toDigits 10 n, Nat.toDigits_ne_nil, fun c hc => ?_, Or.inl ?_, ?_, h⟩
  · exact Nat.isDigit_of_mem_toDigits (by decide) (by decide) hc
  · rw [Nat.toString_eq_repr, Nat.toList_repr]
  · exact Nat.ofDigitChars_ten_toDigits

end SetCover.Text
