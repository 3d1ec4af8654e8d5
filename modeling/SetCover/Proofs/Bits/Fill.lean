import SetCover.Bits.Membership
import SetCover.Proofs.Random.Chance
import SetCover.Proofs.Search.Drawing

/-!
# Random bit vectors

Which members a vector has after it is filled at random, in terms of the words that the source holds
at the start. With even odds the bits of the words become the bits of the vector. With other odds
every number takes the next word, unless the outcome is certain: then no word is taken, but every
word would be favourable.

* `comesUp`: whether the words to come make a number a member.
* `ends_fill`, `ends_random`: filling cannot fail for odds from zero to one, and has these members.
-/

namespace SetCover

open Search

variable {E : Fault → Session → Prop} {σ : Session}

theorem ends_drawWords (count : Nat) :
    Ends (Bits.drawWords count) E
      (fun words σ' => σ.Later count σ' ∧
        words = (List.range count).map fun k => σ.source.stream.word (σ.source.drawn + k)) σ := by
  induction count generalizing σ with
  | zero => exact ends_pure ⟨⟨rfl, rfl⟩, rfl⟩
  | succ count ih =>
      rw [Bits.drawWords]
      refine ends_bind ends_word_later ?_
      rintro w σ₁ ⟨⟨hstream, hdrawn⟩, rfl⟩
      refine ends_bind ih ?_
      rintro words σ₂ ⟨⟨hstream', hdrawn'⟩, rfl⟩
      refine ends_pure ⟨⟨hstream'.trans hstream, by omega⟩, ?_⟩
      rw [List.range_succ_eq_map, List.map_cons, List.map_map, hstream, hdrawn]
      refine congrArg (_ :: ·) (List.map_congr_left fun k _ => ?_)
      have hplace : σ.source.drawn + 1 + k = σ.source.drawn + (k + 1) := by omega
      exact congrArg σ.source.stream.word hplace

/-! ## Filling -/

namespace Bits

variable {size : Nat}

/-- Whether the words to come make `i` a member: bit `i % 64` of word `i / 64` for even odds, and
word `i` for other odds. -/
def comesUp (odds : Float) (source : Source) (i : Nat) : Bool :=
  if odds == 0.5 then bitOf (source.stream.word (source.drawn + i / 64)) (i % 64)
  else
    match Chance.ofFloat? odds with
    | some chance => chance.favours (source.stream.word (source.drawn + i))
    | none => false

theorem exists_blank? {width : Nat} (h : width ≤ capacity size) :
    ∃ b, blank? size width = .ok b :=
  ⟨_, dif_pos h⟩

theorem exists_ofIds? (ids : IdSet) {width : Nat} (h : width ≤ capacity size) :
    ∃ b, ofIds? size ids width = .ok b := by
  obtain ⟨start, hstart⟩ := exists_blank? h
  rw [ofIds?, hstart]
  exact ⟨_, rfl⟩

/-- One number after another is given a membership that depends on a draw of its own. -/
theorem ends_assign_each (b : Bits size) (chance : Chance) (value : Nat → Bool → Bool) (n : Nat) :
    Ends ((List.range n).foldlM
        (fun b i => do pure (b.assign i (value i (← favoured chance)))) b) E
      (fun b' σ' => σ.Later (if chance.certain then 0 else n) σ' ∧ b'.width = b.width ∧
        ∀ i, b'.get i = if i < n ∧ i < b.width then
          value i (chance.favours (σ.source.stream.word (σ.source.drawn + i))) else b.get i) σ := by
  induction n with
  | zero => exact ends_pure ⟨⟨rfl, by simp⟩, rfl, fun i => by simp⟩
  | succ n ih =>
      rw [List.range_succ, List.foldlM_append]
      refine ends_bind ih ?_
      rintro b₁ σ₁ ⟨⟨hstream, hdrawn⟩, hwidth, hget⟩
      rw [List.foldlM_cons]
      refine ends_bind (R := fun b₂ σ₂ => σ.Later (if chance.certain then 0 else n + 1) σ₂ ∧
        b₂ = b₁.assign n
          (value n (chance.favours (σ.source.stream.word (σ.source.drawn + n))))) ?_ ?_
      · refine ends_bind (ends_favoured chance) ?_
        rintro favours σ₂ ⟨⟨hstream', hdrawn'⟩, rfl⟩
        refine ends_pure ⟨⟨hstream'.trans hstream, ?_⟩, ?_⟩
        · rw [hdrawn', hdrawn]
          split <;> omega
        · -- a certain outcome is the same for every word
          by_cases hcertain : chance.certain = true
          · rw [chance.favours_of_certain hcertain, chance.favours_of_certain hcertain]
          · rw [hstream, hdrawn, if_neg hcertain]
      · rintro b₂ σ₂ ⟨hlater, rfl⟩
        refine ends_pure ⟨hlater, by rw [width_assign, hwidth], fun i => ?_⟩
        rw [get_assign, hget, hwidth]
        by_cases hin : n = i
        · subst hin
          simp
        · have hlt : i < n + 1 ↔ i < n := by omega
          simp only [hin, false_and, if_false, hlt]

/-- Filling a vector cannot fail for odds from zero to one; the words to come decide the
members. -/
theorem ends_fill (b : Bits size) {odds : Float} (hodds : (0.0 ≤ odds && odds ≤ 1.0) = true) :
    Ends (b.fill odds) E
      (fun b' _ => b'.width = b.width ∧ b'.Clean ∧
        ∀ i, b'.get i = (decide (i < b.width) && comesUp odds σ.source i)) σ := by
  unfold fill
  refine ends_ite (fun heven => ?_) fun heven => ?_
  · refine ends_bind (ends_drawWords size) ?_
    rintro words σ₁ ⟨-, rfl⟩
    refine ends_pure ⟨rfl, clean_truncate _, fun i => ?_⟩
    rw [get_truncate, get]
    by_cases hi : i < b.width
    · have hword : i / 64 < size := by
        have := b.width_le
        omega
      simp [stored, comesUp, heven, hi, hword]
    · simp [hi]
  · obtain ⟨chance, hchance⟩ := Chance.exists_of_unit hodds
    have hfavoured : favouredBy odds = favoured chance := by
      unfold favouredBy
      rw [hchance]
    rw [hfavoured]
    refine ends_bind (ends_assign_each b chance (fun _ favours => favours) b.width) ?_
    rintro b₁ σ₁ ⟨-, hwidth, hget⟩
    refine ends_pure ⟨hwidth, clean_truncate _, fun i => ?_⟩
    rw [get_truncate, hget, comesUp, if_neg heven, hchance]
    by_cases hi : i < b.width
    · simp [hi]
    · simp [hi, get]

theorem ends_random {width : Nat} (hwidth : width ≤ capacity size) {odds : Float}
    (hodds : (0.0 ≤ odds && odds ≤ 1.0) = true) :
    Ends (random size width odds) E
      (fun b _ => b.width = width ∧ b.Clean ∧
        ∀ i, b.get i = (decide (i < width) && comesUp odds σ.source i)) σ := by
  obtain ⟨b, hblank⟩ := exists_blank? hwidth
  obtain rfl : b.width = width := (blank?_eq_ok hblank).2.1
  exact ends_ofExcept_bind hblank (ends_fill b hodds)

end Bits

end SetCover
