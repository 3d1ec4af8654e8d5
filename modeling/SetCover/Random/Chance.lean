import SetCover.Binary

/-!
# Chances

A chance is a number of favourable words among all words of 64 bits. A number from zero to one
stands for the chance with the whole part of its share of the words.

* `Chance.ofFloat?`: the chance that a number stands for, if it lies between zero and one.
* `Chance.favours`: whether a word is favourable.
-/

namespace SetCover

/-- A share of the words of 64 bits. -/
structure Chance where
  /-- The words below this number are favourable. -/
  words : Nat
  /-- There are no more words than that. -/
  words_le : words ≤ 2 ^ 64

namespace Chance

/-- The chance that a number from zero to one stands for. A number above one has a share of more
words than there are, since the next number after one exceeds it by more than a word's share. -/
def ofFloat? (p : Float) : Option Chance :=
  match Binary.ofFloat? p with
  | none => none
  | some b =>
      let words := b.floorScaled 64
      if b.negative ∧ b.mantissa ≠ 0 then none
      else if h : words ≤ 2 ^ 64 then some ⟨words, h⟩ else none

/-- Whether the outcome is certain, so that no word needs to be looked at. -/
def certain (c : Chance) : Bool := c.words = 2 ^ 64

/-- Whether a word is favourable. -/
def favours (c : Chance) (word : UInt64) : Bool := word.toNat < c.words

/-- Every word is favourable when the outcome is certain. -/
theorem favours_of_certain {c : Chance} (h : c.certain = true) (word : UInt64) :
    c.favours word = true := by
  simp only [certain, decide_eq_true_eq] at h
  simp only [favours, h, decide_eq_true_eq]
  exact word.toNat_lt

end Chance

end SetCover
