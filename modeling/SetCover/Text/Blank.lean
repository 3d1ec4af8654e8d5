/-!
# Blanks and words

The blank characters are those with the Unicode property `White_Space`; a word is a maximal run
of other characters.

* `isBlank_of_isWhitespace`: the ASCII blanks of the core library are among them.
* `words`: the words of a text, in order.
* `wordsIn_append_blank`: a blank separates the words before it from the words after it.
* `wordsIn_of_forall`: a run of other characters is one word.
-/

namespace SetCover.Text

/-- The code points with the property `White_Space`, as ranges with both ends included. -/
def blankRanges : List (Nat × Nat) :=
  [(0x9, 0xd), (0x20, 0x20), (0x85, 0x85), (0xa0, 0xa0), (0x1680, 0x1680), (0x2000, 0x200a),
    (0x2028, 0x2029), (0x202f, 0x202f), (0x205f, 0x205f), (0x3000, 0x3000)]

/-- Whether a character separates words. -/
def isBlank (c : Char) : Bool := blankRanges.any fun r => r.1 ≤ c.toNat && c.toNat ≤ r.2

theorem isBlank_of_isWhitespace {c : Char} (h : c.isWhitespace = true) : isBlank c = true := by
  simp only [Char.isWhitespace, Bool.or_eq_true, decide_eq_true_eq] at h
  rcases h with ((h | h) | h) | h <;> subst h <;> decide

/-- Ends a word, if one is open; `run` holds its characters and `done` the words before it, both
last one first. -/
def closeWord (done : List (List Char)) (run : List Char) : List (List Char) :=
  if run.isEmpty then done else run.reverse :: done

/-- The words of a text, after some words and the characters of an open word. -/
def wordsFrom (done : List (List Char)) (run : List Char) : List Char → List (List Char)
  | [] => (closeWord done run).reverse
  | c :: rest =>
      if isBlank c then wordsFrom (closeWord done run) [] rest else wordsFrom done (c :: run) rest

/-- The words among some characters, in order. -/
def wordsIn (cs : List Char) : List (List Char) := wordsFrom [] [] cs

/-- The words of a text, in order. -/
def words (text : String) : List String := (wordsIn text.toList).map String.ofList

/-! ## What the words are -/

theorem wordsFrom_eq (done : List (List Char)) (run cs : List Char) :
    wordsFrom done run cs = done.reverse ++ wordsFrom [] run cs := by
  induction cs generalizing done run with
  | nil =>
      unfold wordsFrom closeWord
      split <;> simp
  | cons c cs ih =>
      unfold wordsFrom
      split
      · rw [ih (closeWord done run), ih (closeWord [] run), closeWord, closeWord]
        split <;> simp
      · exact ih done (c :: run)

/-- A blank ends the open word. -/
theorem wordsFrom_append_blank {c : Char} (hc : isBlank c = true) (run x y : List Char) :
    wordsFrom [] run (x ++ c :: y) = wordsFrom [] run x ++ wordsIn y := by
  induction x generalizing run with
  | nil =>
      simp only [List.nil_append, wordsFrom, hc, if_true]
      rw [wordsFrom_eq]
      rfl
  | cons d x ih =>
      simp only [List.cons_append, wordsFrom]
      split
      · rw [wordsFrom_eq, ih, wordsFrom_eq (closeWord [] run), List.append_assoc]
      · exact ih (d :: run)

/-- A blank separates the words before it from the words after it. -/
theorem wordsIn_append_blank {c : Char} (hc : isBlank c = true) (x y : List Char) :
    wordsIn (x ++ c :: y) = wordsIn x ++ wordsIn y :=
  wordsFrom_append_blank hc [] x y

theorem wordsFrom_of_forall {run w : List Char} (hw : ∀ c ∈ w, isBlank c = false)
    (hne : run.reverse ++ w ≠ []) : wordsFrom [] run w = [run.reverse ++ w] := by
  induction w generalizing run with
  | nil =>
      have hrun : run ≠ [] := by simpa using hne
      simp [wordsFrom, closeWord, hrun]
  | cons c w ih =>
      rw [wordsFrom, if_neg (by simp [hw c]), ih (fun d hd => hw d (List.mem_cons_of_mem c hd))]
      · simp
      · simp

/-- A run of characters that are not blank is one word. -/
theorem wordsIn_of_forall {w : List Char} (hne : w ≠ []) (hw : ∀ c ∈ w, isBlank c = false) :
    wordsIn w = [w] :=
  wordsFrom_of_forall hw hne

end SetCover.Text
