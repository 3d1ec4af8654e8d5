import SetCover.Proofs.Search.Outcome

/-!
# The words that searches draw

A draw takes the words that the source has next: a word takes one, a chance takes one unless its
outcome is certain, and a number below a bound takes one if that is not rejected.

* `Session.Later`: a session that goes on with the same stream, so many words later.
* `ends_word_later`, `ends_favoured`: single words, and chances.
* `Source.below_of_accepts`: a number below a bound, from one word.
-/

namespace SetCover

namespace Source

@[simp] theorem next_word (s : Source) : s.next.1 = s.stream.word s.drawn := s.wordAt_eq _

@[simp] theorem next_stream (s : Source) : s.next.2.stream = s.stream := by
  rw [next, moveTo_eq]
  rfl

@[simp] theorem next_drawn (s : Source) : s.next.2.drawn = s.drawn + 1 := by
  rw [next, moveTo_eq]
  rfl

theorem ofPlace_stream (stream : Stream) (place : Nat) :
    (Source.ofPlace stream place).stream = stream := rfl

theorem ofPlace_drawn (stream : Stream) (place : Nat) :
    (Source.ofPlace stream place).drawn = place := rfl

/-- A word that is accepted is the only one that a draw takes. -/
theorem below_of_accepts {source : Source} {bound : Nat} (hpos : 0 < bound)
    (haccepts : accepts bound (source.stream.word source.drawn) = true) :
    (source.below bound hpos).1.val = scaled bound (source.stream.word source.drawn) ∧
      (source.below bound hpos).2 = .ofPlace source.stream (source.drawn + 1) := by
  have hseek : source.seek bound source.drawn = source.drawn := by
    unfold seek
    split
    · rfl
    · next hrejected =>
        rw [wordAt_eq] at hrejected
        exact absurd haccepts hrejected
  have hvalue : (source.below bound hpos).1.val =
      scaled bound (source.wordAt (source.seek bound source.drawn)) := rfl
  have htaken : (source.below bound hpos).2 =
      source.moveTo (source.seek bound source.drawn + 1) := rfl
  rw [hvalue, htaken, moveTo_eq, hseek, wordAt_eq]
  exact ⟨rfl, rfl⟩

end Source

open Search

/-- The second session goes on with the stream of the first one, `taken` words later. -/
def Session.Later (taken : Nat) (σ σ' : Session) : Prop :=
  σ'.source.stream = σ.source.stream ∧ σ'.source.drawn = σ.source.drawn + taken

variable {E : Fault → Session → Prop} {σ : Session}

theorem ends_word_later :
    Ends word E (fun w σ' => σ.Later 1 σ' ∧ w = σ.source.stream.word σ.source.drawn) σ :=
  ends_word ⟨⟨by simp, by simp⟩, by simp⟩

theorem ends_favoured (chance : Chance) :
    Ends (favoured chance) E
      (fun value σ' => σ.Later (if chance.certain then 0 else 1) σ' ∧
        value = chance.favours (σ.source.stream.word σ.source.drawn)) σ := by
  unfold favoured
  refine ends_ite (fun hcertain => ?_) fun hcertain => ?_
  · rw [if_pos hcertain]
    exact ends_pure ⟨⟨rfl, rfl⟩, (chance.favours_of_certain hcertain _).symm⟩
  · rw [if_neg hcertain]
    refine ends_bind ends_word_later ?_
    rintro w σ₁ ⟨hlater, rfl⟩
    exact ends_pure ⟨hlater, rfl⟩

end SetCover
