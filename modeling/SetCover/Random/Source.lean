import SetCover.Arithmetic

/-!
# Random sources

A source is an endless stream of 64-bit words with a place in it. A number below a bound is drawn
by rejection: a word is scaled to the bound and taken unless it falls into the part of the words
that would favour some results. A stream is such that no draw rejects for ever.

A stream comes in chunks, and a source keeps the chunk of its place at hand. That is only for speed:
a source is determined by its stream and its place.

* `Source.below`: a number below a bound, and the source after the words that it took.
* `Source.seek_spec`: the word that is taken is the first one that is not rejected.
* `scaled_eq`, `accepts_iff`: scaling and rejection in terms of natural numbers.
* `scaled_lt`: a scaled word lies below the bound.
* `Source.eq_ofPlace`: a source is determined by its stream and its place.
* `Stream.ofList`: the words of a list, and zeros ever after.
-/

namespace SetCover

/-! ## Scaling a word -/

/-- Words whose scaled low half exceeds this are rejected: one less than the bound, shifted up until
its highest bit is set. -/
def acceptLimit (bound : Nat) : UInt64 :=
  (bound.toUInt64 <<< (63 - bound.log2).toUInt64) - 1

/-- Whether a word counts as a draw below `bound`. The product is that of words, its low half. -/
def accepts (bound : Nat) (word : UInt64) : Bool := word * bound.toUInt64 ≤ acceptLimit bound

/-- The number below `bound` that a word stands for: the high half of their product. -/
def scaled (bound : Nat) (word : UInt64) : Nat :=
  ((word >>> 32).toNat * bound + (word &&& 0xffffffff).toNat * bound / 2 ^ 32) / 2 ^ 32

theorem scaled_eq (bound : Nat) (word : UInt64) :
    scaled bound word = word.toNat * bound / 2 ^ 64 := by
  have hhigh : (word >>> 32).toNat = word.toNat / 2 ^ 32 := by
    simp [UInt64.toNat_shiftRight, Nat.shiftRight_eq_div_pow]
  have hlow : (word &&& 0xffffffff).toNat = word.toNat % 2 ^ 32 := by
    rw [UInt64.toNat_and]
    exact Nat.and_two_pow_sub_one_eq_mod _ 32
  have hword : word.toNat * bound =
      word.toNat % 2 ^ 32 * bound + 2 ^ 32 * (word.toNat / 2 ^ 32 * bound) := by
    rw [← Nat.mul_assoc, ← Nat.add_mul, Nat.mod_add_div]
  rw [scaled, hhigh, hlow, hword, show (2 : Nat) ^ 64 = 2 ^ 32 * 2 ^ 32 by decide,
    ← Nat.div_div_eq_div_mul, Nat.add_mul_div_left _ _ (by decide), Nat.add_comm]

theorem scaled_lt {bound : Nat} (h : 0 < bound) (word : UInt64) : scaled bound word < bound := by
  rw [scaled_eq, Nat.div_lt_iff_lt_mul (by decide), Nat.mul_comm bound]
  exact Nat.mul_lt_mul_of_pos_right word.toNat_lt h

/-- For bounds of 64 bits, a word is accepted when the low half of its product with the bound is
below the bound, shifted up until its highest bit is set. -/
theorem accepts_iff {bound : Nat} (h₀ : 0 < bound) (h : bound < 2 ^ 64) (word : UInt64) :
    accepts bound word = true ↔
      word.toNat * bound % 2 ^ 64 < bound * 2 ^ (63 - bound.log2) := by
  have hlog : bound.log2 ≤ 63 := by
    have := (Nat.log2_lt (by omega)).2 h
    omega
  have hbound : bound.toUInt64.toNat = bound := Nat.mod_eq_of_lt h
  have hshift : (63 - bound.log2).toUInt64.toNat = 63 - bound.log2 := Nat.mod_eq_of_lt (by omega)
  have hlt : bound * 2 ^ (63 - bound.log2) < 2 ^ 64 := by
    have h₁ : bound < 2 ^ (bound.log2 + 1) := Nat.lt_log2_self
    calc bound * 2 ^ (63 - bound.log2)
        < 2 ^ (bound.log2 + 1) * 2 ^ (63 - bound.log2) :=
          Nat.mul_lt_mul_of_pos_right h₁ (Nat.two_pow_pos _)
      _ = 2 ^ 64 := by rw [← Nat.pow_add]; congr 1; omega
  have hpos : 0 < bound * 2 ^ (63 - bound.log2) := Nat.mul_pos h₀ (Nat.two_pow_pos _)
  have hlimit : (acceptLimit bound).toNat = bound * 2 ^ (63 - bound.log2) - 1 := by
    have hup : (bound.toUInt64 <<< (63 - bound.log2).toUInt64).toNat =
        bound * 2 ^ (63 - bound.log2) := by
      rw [UInt64.toNat_shiftLeft, hbound, hshift,
        Nat.mod_eq_of_lt (by omega : 63 - bound.log2 < 64), Nat.shiftLeft_eq,
        Nat.mod_eq_of_lt hlt]
    rw [acceptLimit, UInt64.toNat_sub_of_le _ _ (by
      rw [UInt64.le_iff_toNat_le, hup]
      exact hpos), hup]
    rfl
  simp only [accepts, decide_eq_true_eq, UInt64.le_iff_toNat_le, UInt64.toNat_mul, hbound, hlimit]
  omega

/-- The zero word is never rejected. -/
@[simp] theorem accepts_zero (bound : Nat) : accepts bound 0 = true := by
  simp [accepts, UInt64.le_iff_toNat_le]

/-! ## Streams -/

/-- Eight words. -/
abbrev Chunk := Vector UInt64 8

/-- An endless stream of words. -/
structure Stream where
  /-- The words, eight at a time. -/
  chunk : Nat → Chunk
  /-- From every place on, some word is accepted for every bound. -/
  settles : ∀ bound place, ∃ i, place ≤ i ∧ accepts bound (chunk (i / 8))[i % 8] = true

namespace Stream

/-- The word at a place. -/
def word (s : Stream) (i : Nat) : UInt64 := (s.chunk (i / 8))[i % 8]

/-- The stream of some chunks that are zero from some place on. -/
def ofChunks (chunk : Nat → Chunk) (length : Nat)
    (h : ∀ k, length ≤ k → chunk k = Vector.replicate 8 0) : Stream where
  chunk := chunk
  settles bound place := by
    refine ⟨max place (8 * length), by omega, ?_⟩
    rw [h _ (by omega), Vector.getElem_replicate]
    exact accepts_zero bound

/-- The stream of some words that are zero from some place on. -/
def ofWords (word : Nat → UInt64) (length : Nat) (h : ∀ i, length ≤ i → word i = 0) : Stream where
  chunk k := Vector.ofFn fun j => word (8 * k + j.val)
  settles bound place := by
    refine ⟨max place length, by omega, ?_⟩
    have hi : 8 * (max place length / 8) + max place length % 8 = max place length :=
      Nat.div_add_mod ..
    rw [Vector.getElem_ofFn]
    simp only [hi]
    rw [h _ (by omega)]
    exact accepts_zero bound

/-- The words of a list, and zeros ever after. -/
def ofList (words : List UInt64) : Stream :=
  let words := words.toArray
  ofWords (fun i => words[i]?.getD 0) words.size fun i hi => by simp [hi]

@[simp] theorem word_ofWords {word : Nat → UInt64} {length : Nat}
    (h : ∀ i, length ≤ i → word i = 0) (i : Nat) : (ofWords word length h).word i = word i := by
  simp only [Stream.word, ofWords, Vector.getElem_ofFn, Nat.div_add_mod]

@[simp] theorem word_ofList (words : List UInt64) (i : Nat) :
    (ofList words).word i = words[i]?.getD 0 := by
  simp [ofList]

end Stream

/-! ## Sources -/

/-- A stream with a place in it. -/
structure Source where
  stream : Stream
  /-- How many words are taken. -/
  drawn : Nat
  /-- The chunk of the next word. -/
  ready : Chunk
  ready_eq : ready = stream.chunk (drawn / 8)

namespace Source

/-- A stream at a place. -/
def ofPlace (stream : Stream) (place : Nat) : Source :=
  ⟨stream, place, stream.chunk (place / 8), rfl⟩

/-- A stream at its start. -/
def ofStream (stream : Stream) : Source := ofPlace stream 0

/-- A source is determined by its stream and its place. -/
theorem eq_ofPlace (s : Source) : s = ofPlace s.stream s.drawn := by
  obtain ⟨stream, drawn, ready, h⟩ := s
  subst h
  rfl

/-- The same stream at another place. -/
def moveTo (s : Source) (place : Nat) : Source :=
  if h : place / 8 = s.drawn / 8 then ⟨s.stream, place, s.ready, h ▸ s.ready_eq⟩
  else ofPlace s.stream place

@[simp] theorem moveTo_eq (s : Source) (place : Nat) : s.moveTo place = ofPlace s.stream place := by
  unfold moveTo
  split
  · next h =>
      simp only [ofPlace, Source.mk.injEq, true_and]
      rw [h]
      exact s.ready_eq
  · rfl

/-- The word at a place of the stream. -/
def wordAt (s : Source) (i : Nat) : UInt64 :=
  if i / 8 = s.drawn / 8 then s.ready[i % 8] else s.stream.word i

@[simp] theorem wordAt_eq (s : Source) (i : Nat) : s.wordAt i = s.stream.word i := by
  unfold wordAt
  split
  · next h => simp only [s.ready_eq, Stream.word, h]
  · rfl

/-- The next word. -/
def next (s : Source) : UInt64 × Source := (s.wordAt s.drawn, s.moveTo (s.drawn + 1))

/-- Place `j` comes up in a search for an accepted word because the word before it is rejected. -/
def Follows (s : Source) (bound : Nat) (j i : Nat) : Prop :=
  j = i + 1 ∧ accepts bound (s.stream.word i) = false

theorem follows_wf (s : Source) (bound : Nat) : WellFounded (s.Follows bound) := by
  refine ⟨fun place => ?_⟩
  obtain ⟨i, hi, ha⟩ := s.stream.settles bound place
  have ha : accepts bound (s.stream.word i) = true := ha
  generalize hd : i - place = d
  induction d generalizing place with
  | zero =>
      have : i = place := by omega
      subst this
      exact ⟨_, fun j hj => by simp [hj.2] at ha⟩
  | succ d ih =>
      refine ⟨_, fun j hj => ?_⟩
      have hj := hj.1
      exact ih j (by omega) (by omega)

/-- The first place from `i` on whose word is accepted. -/
def seek (s : Source) (bound : Nat) (i : Nat) : Nat :=
  if h : accepts bound (s.wordAt i) = true then i else s.seek bound (i + 1)
termination_by (s.follows_wf bound).wrap i
decreasing_by exact ⟨rfl, by simpa using h⟩

/-- The search ends at the first place whose word is accepted. -/
theorem seek_spec (s : Source) (bound i : Nat) :
    i ≤ s.seek bound i ∧ accepts bound (s.stream.word (s.seek bound i)) = true ∧
      ∀ j, i ≤ j → j < s.seek bound i → accepts bound (s.stream.word j) = false := by
  induction i using (s.follows_wf bound).induction with
  | _ i ih =>
      unfold seek
      split
      · next h => exact ⟨Nat.le_refl i, by simpa using h, fun j _ _ => by omega⟩
      · next h =>
          have h : accepts bound (s.stream.word i) = false := by simpa using h
          obtain ⟨h₁, h₂, h₃⟩ := ih (i + 1) ⟨rfl, h⟩
          refine ⟨by omega, h₂, fun j hij hj => ?_⟩
          by_cases e : j = i
          · subst e
            exact h
          · exact h₃ j (by omega) hj

/-- A number below `bound`, and the source after the words that the draw took. -/
def below (s : Source) (bound : Nat) (h : 0 < bound) : Fin bound × Source :=
  let place := s.seek bound s.drawn
  (⟨scaled bound (s.wordAt place), scaled_lt h _⟩, s.moveTo (place + 1))

end Source

end SetCover
