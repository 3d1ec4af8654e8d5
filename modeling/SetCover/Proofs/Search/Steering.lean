import SetCover.Proofs.Search.Drawing

/-!
# Steering a search

Some words lead a search to a result if it gives that result whenever they come next, whatever comes
after them, and takes just them. So the words for two searches one after another are those for the
first and those for the second, and what a search can be led to is found out draw by draw.

* `Search.LedBy`, `Search.CanGive`: what words lead to, and what some words lead to.
* `CanGive.bind`: one search after another.
* `exists_accepted`, `canGive_below`: every number below a bound can be drawn.
* `CanGive.exists_run`: a list of words, with zeros after it, that leads to the result.
-/

namespace SetCover

/-! ## Words for a number -/

/-- Every number below a bound is drawn by some word. -/
theorem exists_accepted {bound n : Nat} (hn : n < bound) (hbound : bound < 2 ^ 64) :
    ∃ word, accepts bound word = true ∧ scaled bound word = n := by
  -- the first word whose product with the bound has `n` as its high half
  obtain ⟨first, excess, hexcess, hproduct⟩ :
      ∃ first excess, excess < bound ∧ first * bound = 2 ^ 64 * n + excess := by
    have hdiv := Nat.div_add_mod' (2 ^ 64 * n + (bound - 1)) bound
    have hmod := Nat.mod_lt (2 ^ 64 * n + (bound - 1)) (Nat.zero_lt_of_lt hn)
    refine ⟨(2 ^ 64 * n + (bound - 1)) / bound,
      bound - 1 - (2 ^ 64 * n + (bound - 1)) % bound, by omega, by omega⟩
  have hfirst : first < 2 ^ 64 := by
    apply Nat.lt_of_mul_lt_mul_right (a := bound)
    calc first * bound
        < 2 ^ 64 * n + 2 ^ 64 := by omega
      _ ≤ 2 ^ 64 * bound := Nat.mul_le_mul_left _ hn
  have htoNat : first.toUInt64.toNat = first := Nat.mod_eq_of_lt hfirst
  have hlow : (2 ^ 64 * n + excess) % 2 ^ 64 = excess := by omega
  have hhigh : (2 ^ 64 * n + excess) / 2 ^ 64 = n := by omega
  refine ⟨first.toUInt64, ?_, ?_⟩
  · rw [accepts_iff (Nat.zero_lt_of_lt hn) hbound, htoNat, hproduct, hlow]
    exact Nat.lt_of_lt_of_le hexcess (Nat.le_mul_of_pos_right _ (Nat.two_pow_pos _))
  · rw [scaled_eq, htoNat, hproduct, hhigh]

/-! ## Words that come next -/

/-- The next words of the source are these. -/
def Source.Begins (source : Source) (words : List UInt64) : Prop :=
  ∀ (i : Nat) (w : UInt64), words[i]? = some w → source.stream.word (source.drawn + i) = w

namespace Source.Begins

variable {σ σ' : Session} {words words' : List UInt64}

theorem left (h : σ.source.Begins (words ++ words')) : σ.source.Begins words := by
  intro i w hw
  obtain ⟨hi, _⟩ := List.getElem?_eq_some_iff.mp hw
  exact h i w ((List.getElem?_append_left hi).trans hw)

/-- After the first words, the other ones come next. -/
theorem later (h : σ.source.Begins (words ++ words')) (hlater : σ.Later words.length σ') :
    σ'.source.Begins words' := by
  intro i w hw
  obtain ⟨hstream, hdrawn⟩ := hlater
  rw [hstream, hdrawn, Nat.add_assoc]
  refine h _ w ?_
  rw [List.getElem?_append_right (Nat.le_add_right ..), Nat.add_sub_cancel_left, hw]

theorem head {w : UInt64} (h : σ.source.Begins (w :: words)) :
    σ.source.stream.word σ.source.drawn = w :=
  h 0 w rfl

end Source.Begins

theorem Source.begins_ofList (words : List UInt64) :
    (Source.ofStream (.ofList words)).Begins words := by
  intro i w hw
  show (Stream.ofList words).word (0 + i) = w
  rw [Nat.zero_add, Stream.word_ofList, hw, Option.getD_some]

namespace Search

/-! ## What words lead to -/

/-- Whenever these words come next, the search gives `a` and takes just them. -/
def LedBy {α : Type} (x : Search α) (words : List UInt64) (a : α) : Prop :=
  ∀ σ, σ.source.Begins words →
    Ends x noFault (fun a' σ' => a' = a ∧ σ.Later words.length σ') σ

/-- Some words lead the search to `a`. -/
def CanGive {α : Type} (x : Search α) (a : α) : Prop := ∃ words, LedBy x words a

variable {α β : Type} {x : Search α} {f : α → Search β} {a : α} {b : β}
  {words words' : List UInt64}

theorem ledBy_pure (a : α) : LedBy (pure a) [] a := fun _ _ => ends_pure ⟨rfl, rfl, rfl⟩

theorem LedBy.bind (hx : LedBy x words a) (hf : LedBy (f a) words' b) :
    LedBy (x >>= f) (words ++ words') b := by
  intro σ hbegins
  refine ends_bind (hx σ hbegins.left) ?_
  rintro _ σ₁ ⟨rfl, hlater⟩
  refine (hf σ₁ (hbegins.later hlater)).weaken ?_
  rintro _ σ₂ ⟨rfl, hstream, hdrawn⟩
  refine ⟨rfl, hstream.trans hlater.1, ?_⟩
  rw [hdrawn, hlater.2, List.length_append, Nat.add_assoc]

theorem ledBy_note (event : Event) : LedBy (note event) [] () := fun _ _ =>
  ends_note ⟨rfl, rfl, rfl⟩

theorem ledBy_below {bound : Nat} {n : Fin bound} {w : UInt64} (haccepts : accepts bound w = true)
    (hscaled : scaled bound w = n) : LedBy (below bound) [w] n := by
  intro σ hbegins
  have hpos : 0 < bound := Nat.zero_lt_of_lt n.isLt
  rw [← hbegins.head] at haccepts hscaled
  obtain ⟨hvalue, htaken⟩ := Source.below_of_accepts hpos haccepts
  unfold below
  rw [dif_pos hpos]
  refine ends_modifyGet ⟨Fin.ext (hvalue.trans hscaled), ?_⟩
  show σ.Later 1 { σ with source := (σ.source.below bound hpos).2 }
  rw [htaken]
  exact ⟨rfl, rfl⟩

/-! ## What can be given -/

theorem canGive_pure (a : α) : CanGive (pure a) a := ⟨[], ledBy_pure a⟩

theorem CanGive.bind (hx : CanGive x a) (hf : CanGive (f a) b) : CanGive (x >>= f) b := by
  obtain ⟨words, hx⟩ := hx
  obtain ⟨words', hf⟩ := hf
  exact ⟨words ++ words', hx.bind hf⟩

theorem canGive_note (event : Event) : CanGive (note event) () := ⟨[], ledBy_note event⟩

theorem canGive_ofExcept {y : Except Fault α} (h : y = .ok a) :
    CanGive (Search.ofExcept y) a := by
  subst h
  exact canGive_pure a

/-- Every number below the bound can be drawn. -/
theorem canGive_below {bound : Nat} (hbound : bound < 2 ^ 64) (n : Fin bound) :
    CanGive (below bound) n := by
  obtain ⟨w, haccepts, hscaled⟩ := exists_accepted n.isLt hbound
  exact ⟨[w], ledBy_below haccepts hscaled⟩

theorem LedBy.exists_run (h : LedBy x words a) :
    ∃ σ', x.run ⟨.ofStream (.ofList words), []⟩ = .ok a σ' := by
  obtain ⟨_, σ', hrun, rfl, _⟩ :=
    (h ⟨.ofStream (.ofList words), []⟩ (Source.begins_ofList words)).exists_run
  exact ⟨σ', hrun⟩

theorem CanGive.exists_run (h : CanGive x a) :
    ∃ words σ', x.run ⟨.ofStream (.ofList words), []⟩ = .ok a σ' := by
  obtain ⟨words, hled⟩ := h
  exact ⟨words, hled.exists_run⟩

end Search

end SetCover
