import SetCover.Text.Blank

/-!
# Layouts

How tokens can be laid out as a text: every token but a last one is followed by a blank, and there
may be more blanks anywhere between tokens. A text is a layout of its words, and of nothing else.

* `LaidOut`: some characters are a layout of some tokens.
* `LaidOut.wordsIn`, `laidOut_wordsIn`: the words of a layout, and the layout that a text is.
* `words_eq_iff`: a text has these words exactly when it is a layout of them.
* `exists_words_take`: some text has only the first words of a text.
-/

namespace SetCover.Text

/-- A token has characters, and none of them is blank. -/
def IsToken (token : String) : Prop :=
  token.toList ≠ [] ∧ ∀ c ∈ token.toList, isBlank c = false

/-- The characters are the tokens in order, with blanks before, between and after them. -/
inductive LaidOut : List String → List Char → Prop
  | nil : LaidOut [] []
  | blank {c : Char} {tokens : List String} {cs : List Char} (hc : isBlank c = true)
      (h : LaidOut tokens cs) : LaidOut tokens (c :: cs)
  | last {token : String} (htoken : IsToken token) : LaidOut [token] token.toList
  | next {token : String} {c : Char} {tokens : List String} {cs : List Char}
      (htoken : IsToken token) (hc : isBlank c = true) (h : LaidOut tokens cs) :
      LaidOut (token :: tokens) (token.toList ++ c :: cs)

theorem wordsIn_cons_blank {c : Char} (hc : isBlank c = true) (cs : List Char) :
    wordsIn (c :: cs) = wordsIn cs :=
  wordsIn_append_blank hc [] cs

/-- The words of a layout are the tokens that are laid out. -/
theorem LaidOut.wordsIn {tokens : List String} {cs : List Char} (h : LaidOut tokens cs) :
    (wordsIn cs).map String.ofList = tokens := by
  induction h with
  | nil => rfl
  | blank hc h ih => rw [wordsIn_cons_blank hc, ih]
  | last htoken => simp [wordsIn_of_forall htoken.1 htoken.2]
  | next htoken hc h ih =>
      rw [wordsIn_append_blank hc, wordsIn_of_forall htoken.1 htoken.2, List.map_append, ih]
      simp

/-- Characters up to the first blank. -/
theorem exists_first_blank (cs : List Char) :
    ∃ w, (∀ c ∈ w, isBlank c = false) ∧
      (cs = w ∨ ∃ c rest, isBlank c = true ∧ cs = w ++ c :: rest) := by
  induction cs with
  | nil => exact ⟨[], by simp, Or.inl rfl⟩
  | cons d cs ih =>
      cases hd : isBlank d with
      | true => exact ⟨[], by simp, Or.inr ⟨d, cs, hd, rfl⟩⟩
      | false =>
          obtain ⟨w, hw, hcs⟩ := ih
          refine ⟨d :: w, ?_, ?_⟩
          · intro c hc
            rcases List.mem_cons.mp hc with rfl | hc
            · exact hd
            · exact hw c hc
          · rcases hcs with rfl | ⟨c, rest, hc, rfl⟩
            · exact Or.inl rfl
            · exact Or.inr ⟨c, rest, hc, rfl⟩

/-- Characters are a layout of their words. -/
theorem laidOut_wordsIn (cs : List Char) : LaidOut ((wordsIn cs).map String.ofList) cs := by
  induction hlength : cs.length using Nat.strongRecOn generalizing cs with
  | ind n ih =>
      obtain ⟨w, hw, rfl | ⟨c, rest, hc, rfl⟩⟩ := exists_first_blank cs
      · by_cases hne : cs = []
        · subst hne
          exact LaidOut.nil
        · have htoken : IsToken (String.ofList cs) := by
            rw [IsToken, String.toList_ofList]
            exact ⟨hne, hw⟩
          have hlast := LaidOut.last htoken
          rw [String.toList_ofList] at hlast
          rwa [wordsIn_of_forall hne hw]
      · have hrest : LaidOut ((wordsIn rest).map String.ofList) rest := by
          refine ih rest.length ?_ rest rfl
          rw [← hlength, List.length_append, List.length_cons]
          omega
        by_cases hne : w = []
        · subst hne
          rw [List.nil_append, wordsIn_cons_blank hc]
          exact LaidOut.blank hc hrest
        · have htoken : IsToken (String.ofList w) := by
            rw [IsToken, String.toList_ofList]
            exact ⟨hne, hw⟩
          have hnext := LaidOut.next htoken hc hrest
          rw [String.toList_ofList] at hnext
          rwa [wordsIn_append_blank hc, wordsIn_of_forall hne hw, List.map_append]

/-- A text has these words exactly when it is a layout of them. -/
theorem words_eq_iff {text : String} {tokens : List String} :
    words text = tokens ↔ LaidOut tokens text.toList := by
  constructor
  · rintro rfl
    exact laidOut_wordsIn text.toList
  · intro h
    exact h.wordsIn

/-! ## Texts with given words -/

theorem LaidOut.isToken {tokens : List String} {cs : List Char} (h : LaidOut tokens cs) :
    ∀ token ∈ tokens, IsToken token := by
  induction h with
  | nil => simp
  | blank hc h ih => exact ih
  | last htoken => simpa using htoken
  | next htoken hc h ih => exact List.forall_mem_cons.mpr ⟨htoken, ih⟩

theorem exists_laidOut {tokens : List String} (h : ∀ token ∈ tokens, IsToken token) :
    ∃ cs, LaidOut tokens cs := by
  induction tokens with
  | nil => exact ⟨[], .nil⟩
  | cons token tokens ih =>
      obtain ⟨htoken, htokens⟩ := List.forall_mem_cons.mp h
      obtain ⟨cs, hlaid⟩ := ih htokens
      exact ⟨token.toList ++ ' ' :: cs, .next htoken (by decide) hlaid⟩

/-- Some text has only the first words of a text. -/
theorem exists_words_take (text : String) (j : Nat) :
    ∃ text', words text' = (words text).take j := by
  have htokens : ∀ token ∈ (words text).take j, IsToken token := by
    intro token htoken
    exact (words_eq_iff.mp rfl).isToken token (List.mem_of_mem_take htoken)
  obtain ⟨cs, hlaid⟩ := exists_laidOut htokens
  refine ⟨String.ofList cs, words_eq_iff.mpr ?_⟩
  rwa [String.toList_ofList]

end SetCover.Text
