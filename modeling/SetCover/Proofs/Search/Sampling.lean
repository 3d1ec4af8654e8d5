import SetCover.Proofs.Search.Steering

/-!
# Several draws below one bound

A sample is what the next draws below a bound give, one draw after another. How many words it takes
depends on how many of them are rejected; where none is, every word gives one number.

* `Source.sample`: the numbers, and the source after them.
* `Source.Begins.sample_eq`, `exists_sample_ofList`: the sample of words that are all accepted.
-/

namespace SetCover.Source

/-- What the next `count` draws below a bound give, and the source after them. -/
def sample (source : Source) (bound : Nat) (hpos : 0 < bound) : Nat → List (Fin bound) × Source
  | 0 => ([], source)
  | count + 1 =>
      let first := source.below bound hpos
      let rest := sample first.2 bound hpos count
      (first.1 :: rest.1, rest.2)

variable {source : Source} {bound : Nat}

@[simp] theorem length_sample (source : Source) (bound : Nat) (hpos : 0 < bound) (count : Nat) :
    (source.sample bound hpos count).1.length = count := by
  induction count generalizing source with
  | zero => rfl
  | succ count ih => exact congrArg (· + 1) (ih _)

theorem lt_of_mem_sample {hpos : 0 < bound} {count i : Nat}
    (h : i ∈ (source.sample bound hpos count).1.map Fin.val) : i < bound := by
  obtain ⟨j, _, rfl⟩ := List.mem_map.mp h
  exact j.isLt

theorem Begins.tail {w : UInt64} {words : List UInt64} (h : source.Begins (w :: words)) :
    (Source.ofPlace source.stream (source.drawn + 1)).Begins words := by
  intro i w' hw'
  rw [ofPlace_stream, ofPlace_drawn, Nat.add_assoc, Nat.add_comm 1]
  exact h (i + 1) w' hw'

/-- Where the next words are all accepted, every draw takes one of them. -/
theorem Begins.sample_eq {words : List UInt64} (h : source.Begins words) (hpos : 0 < bound)
    (haccepts : ∀ w ∈ words, accepts bound w = true) :
    (source.sample bound hpos words.length).1.map Fin.val = words.map (scaled bound) ∧
      (source.sample bound hpos words.length).2 =
        .ofPlace source.stream (source.drawn + words.length) := by
  induction words generalizing source with
  | nil => exact ⟨rfl, source.eq_ofPlace⟩
  | cons w words ih =>
      have hword : source.stream.word source.drawn = w := h 0 w rfl
      have hfirst : accepts bound (source.stream.word source.drawn) = true := by
        rw [hword]
        exact haccepts w List.mem_cons_self
      obtain ⟨hvalue, htaken⟩ := below_of_accepts hpos hfirst
      obtain ⟨hvalues, hafter⟩ := ih h.tail fun w' hw' => haccepts w' (List.mem_cons_of_mem _ hw')
      rw [← htaken] at hvalues hafter
      constructor
      · rw [List.map_cons, ← hvalues, ← hword, ← hvalue]
        rfl
      · refine hafter.trans ?_
        rw [htaken, ofPlace_stream, ofPlace_drawn, Nat.add_assoc, Nat.add_comm 1]
        rfl

theorem exists_sample_ofList (words : List UInt64) (hpos : 0 < bound)
    (haccepts : words.all (accepts bound) = true) :
    ∃ drawn, (Source.ofStream (.ofList words)).sample bound hpos words.length =
        (drawn, .ofPlace (.ofList words) words.length) ∧
      drawn.map Fin.val = words.map (scaled bound) := by
  obtain ⟨hvalues, hafter⟩ := (Source.begins_ofList words).sample_eq hpos
    (List.all_eq_true.mp haccepts)
  rw [Source.ofStream, ofPlace_stream, ofPlace_drawn, Nat.zero_add] at hafter
  exact ⟨_, Prod.ext rfl hafter, hvalues⟩

end SetCover.Source
