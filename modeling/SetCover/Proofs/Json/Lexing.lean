import Mathlib.Data.List.TakeWhile
import SetCover.Json.Printer

/-!
# Tokens of printed text

What is printed for a number, a text or a keyword is taken as one token again. Numbers and keywords
end where a character follows that they cannot go on with, so what comes after them has to be apart.

* `Spells`: some characters are taken as these tokens, whatever comes before and apart after them.
* `scanString_escaped`, `decodeUnits_toNat`: a text is found again behind its escapes.
* `number?_toDigits`: decimal digits are a number.
* `spells_word`, `spells_numeral`, `spells_label`: one token.
* `Spells.cons`, `Spells.append_cons`: tokens with punctuation before or between them.
-/

namespace SetCover.Json

variable {c : Char} {cs cs' rest : List Char} {t : Token} {ts ts' : List Token}

/-! ## Strings -/

theorem hexUnit?_hexByte : ∀ n < 0x20,
    hexUnit? '0' '0' (Nat.digitChar (n / 16)) (Nat.digitChar (n % 16)) = some n := by
  decide

/-- What is printed for one character is scanned as its code. -/
theorem scanString_escaped_append (c : Char) (rest : List Char) (read : List Nat) :
    scanString (escaped c ++ rest) read = scanString rest (c.toNat :: read) := by
  unfold escaped
  -- the characters that are escaped by a letter or by themselves
  iterate 7 (split; next h => rw [beq_iff_eq.mp h]; rfl)
  split
  · next h =>
      show scanString ('\\' :: 'u' :: '0' :: '0' :: Nat.digitChar (c.toNat / 16) ::
        Nat.digitChar (c.toNat % 16) :: rest) read = _
      rw [scanString.eq_def]
      simp [hexUnit?_hexByte c.toNat h]
  · next hquote hbackslash _ _ _ _ _ hcontrol =>
      rw [List.singleton_append, scanString.eq_def]
      simp [hquote, hbackslash, hcontrol]

/-- A text is scanned up to its closing quote. -/
theorem scanString_escaped (cs rest : List Char) (read : List Nat) :
    scanString (cs.flatMap escaped ++ '"' :: rest) read =
      some (read.reverse ++ cs.map Char.toNat, rest) := by
  induction cs generalizing read with
  | nil =>
      rw [scanString.eq_def]
      simp
  | cons c cs ih =>
      rw [List.flatMap_cons, List.append_assoc, scanString_escaped_append, ih, List.reverse_cons,
        List.append_assoc]
      rfl

theorem not_half_toNat (c : Char) : isHighHalf c.toNat = false ∧ isLowHalf c.toNat = false := by
  have hvalid : c.toNat.isValidChar := c.valid
  simp only [isHighHalf, isLowHalf, Bool.and_eq_false_iff, decide_eq_false_iff_not]
  unfold Nat.isValidChar at hvalid
  omega

/-- The code of a character is no half of a surrogate pair, so it stands for that character. -/
theorem decodeFrom_toNat (done cs : List Char) :
    decodeFrom done (cs.map Char.toNat) = some (done.reverse ++ cs) := by
  induction cs generalizing done with
  | nil => simp [decodeFrom]
  | cons c cs ih =>
      obtain ⟨hhigh, hlow⟩ := not_half_toNat c
      rw [List.map_cons, decodeFrom.eq_def]
      simp [hhigh, hlow, Char.ofNat_toNat, ih]

theorem decodeUnits_toNat (cs : List Char) : decodeUnits (cs.map Char.toNat) = some cs :=
  decodeFrom_toNat [] cs

/-! ## Numbers -/

theorem head?_toDigits_of_lt : ∀ n < 10, 0 < n → (Nat.toDigits 10 n).head? ≠ some '0' := by
  decide

/-- The first digit of a positive number is not zero. -/
theorem head?_toDigits_ne (n : Nat) (h : 0 < n) : (Nat.toDigits 10 n).head? ≠ some '0' := by
  induction n using Nat.strongRecOn with
  | ind n ih =>
      by_cases hsmall : n < 10
      · exact head?_toDigits_of_lt n hsmall h
      · have hlarge : 10 ≤ n := Nat.le_of_not_lt hsmall
        have hhead := ih (n / 10) (by omega) (by omega)
        rw [Nat.toDigits_of_base_le (by decide) hlarge, List.head?_append]
        rw [List.head?_eq_some_head Nat.toDigits_ne_nil] at hhead ⊢
        exact hhead

/-- Digits without a superfluous zero are a number. -/
theorem number?_of_digits {digits : List Char} (hne : digits ≠ [])
    (hdigits : ∀ c ∈ digits, c.isDigit = true)
    (hzero : digits.head? = some '0' → digits.length = 1) :
    number? digits = some ⟨false, digits, none, none⟩ := by
  have hall : someDigits? digits = some (digits, []) := by
    unfold someDigits?
    rw [List.takeWhile_eq_self_iff.mpr hdigits, List.dropWhile_eq_nil_iff.mpr hdigits]
    simp [hne]
  unfold number?
  split
  next negative rest hsign =>
    split at hsign
    · have hminus : ('-' : Char).isDigit = true := hdigits '-' (by simp)
      exact absurd hminus (by decide)
    · cases hsign
      simp only [hall, Option.bind_eq_bind, Option.bind_some]
      rw [if_neg (by simpa using hzero)]
      rfl

/-- Decimal digits are a number. -/
theorem number?_toDigits (n : Nat) :
    number? (Nat.toDigits 10 n) = some ⟨false, Nat.toDigits 10 n, none, none⟩ := by
  refine number?_of_digits Nat.toDigits_ne_nil
    (fun c hc => Nat.isDigit_of_mem_toDigits (by decide) (by decide) hc) fun hhead => ?_
  by_cases hn : n = 0
  · subst hn
    rfl
  · exact absurd hhead (head?_toDigits_ne n (Nat.pos_of_ne_zero hn))

/-! ## Single tokens -/

/-- Neither a number nor a keyword goes on with what follows. -/
def Apart (cs : List Char) : Prop := ∀ c ∈ cs.head?, isNumberChar c = false ∧ c.isAlpha = false

/-- The characters are taken as these tokens, whatever comes before and apart after them. -/
def Spells (cs : List Char) (ts : List Token) : Prop :=
  ∀ done rest, Apart rest →
    Token.lexFrom done (cs ++ rest) = Token.lexFrom (ts.reverse ++ done) rest

theorem apart_nil : Apart [] := by
  intro c hc
  cases hc

theorem takeWhile_append_of_apart {p : Char → Bool} (hcs : ∀ c ∈ cs, p c = true)
    (hrest : ∀ c ∈ rest.head?, p c = false) : (cs ++ rest).takeWhile p = cs := by
  rw [List.takeWhile_append_of_pos hcs]
  cases rest with
  | nil => simp
  | cons c rest => simp [hrest c rfl]

theorem dropWhile_append_of_apart {p : Char → Bool} (hcs : ∀ c ∈ cs, p c = true)
    (hrest : ∀ c ∈ rest.head?, p c = false) : (cs ++ rest).dropWhile p = rest := by
  rw [List.dropWhile_append_of_pos hcs]
  cases rest with
  | nil => simp
  | cons c rest => simp [hrest c rfl]

/-- Punctuation is not blank. -/
theorem isBlank_of_punctuation (h : punctuation? c = some t) : isBlank c = false := by
  unfold punctuation? at h
  split at h <;> first | rfl | cases h

/-- No number and no keyword goes on with punctuation. -/
theorem apart_of_punctuation (h : punctuation? c = some t) (rest : List Char) :
    Apart (c :: rest) := by
  intro d hd
  cases hd
  unfold punctuation? at h
  split at h <;> first | exact ⟨rfl, rfl⟩ | cases h

theorem lexFrom_punctuation (h : punctuation? c = some t) (done : List Token)
    (rest : List Char) : Token.lexFrom done (c :: rest) = Token.lexFrom (t :: done) rest := by
  rw [Token.lexFrom]
  simp [isBlank_of_punctuation h, h]

theorem spells_nil : Spells [] [] := fun _ _ _ => rfl

/-- Punctuation before other tokens. -/
theorem Spells.cons (hc : punctuation? c = some t) (h : Spells cs ts) :
    Spells (c :: cs) (t :: ts) := by
  intro done rest hrest
  rw [List.cons_append, lexFrom_punctuation hc, h (t :: done) rest hrest, List.reverse_cons,
    List.append_assoc]
  rfl

/-- Punctuation between other tokens. -/
theorem Spells.append_cons (h : Spells cs ts) (hc : punctuation? c = some t)
    (h' : Spells cs' ts') : Spells (cs ++ c :: cs') (ts ++ t :: ts') := by
  intro done rest hrest
  have hapart : Apart (c :: cs' ++ rest) := apart_of_punctuation hc (cs' ++ rest)
  rw [List.append_assoc, h done _ hapart, (h'.cons hc) _ rest hrest, List.reverse_append,
    List.append_assoc]

/-- A keyword. -/
theorem spells_word {word : List Char} (hblank : isBlank c = false)
    (hpunctuation : punctuation? c = none) (hquote : c ≠ '"') (hnumber : isNumberChar c = false)
    (halpha : c.isAlpha = true) (hword : word.all Char.isAlpha = true) :
    Spells (c :: word) [keyword (c :: word)] := by
  intro done rest hrest
  have hword : ∀ d ∈ word, d.isAlpha = true := List.all_eq_true.mp hword
  have hend : ∀ d ∈ rest.head?, d.isAlpha = false := fun d hd => (hrest d hd).2
  rw [List.cons_append, Token.lexFrom]
  simp [hblank, hpunctuation, hquote, hnumber, halpha,
    takeWhile_append_of_apart hword hend, dropWhile_append_of_apart hword hend]

theorem isBlank_of_isNumberChar (h : isNumberChar c = true) : isBlank c = false := by
  cases hblank : isBlank c with
  | false => rfl
  | true =>
      simp only [isBlank, Bool.or_eq_true, beq_iff_eq] at hblank
      obtain ((rfl | rfl) | rfl) | rfl := hblank <;> exact absurd h (by decide)

theorem punctuation?_of_isNumberChar (h : isNumberChar c = true) : punctuation? c = none := by
  cases hpunctuation : punctuation? c with
  | none => rfl
  | some t =>
      have hfalse := (apart_of_punctuation hpunctuation [] c rfl).1
      rw [h] at hfalse
      cases hfalse

/-- A number ends where something follows that is apart. -/
theorem spells_numeral {number : Number} (hread : number? cs = some number)
    (hcs : ∀ c ∈ cs, isNumberChar c = true) : Spells cs [.number number] := by
  intro done rest hrest
  have hend : ∀ d ∈ rest.head?, isNumberChar d = false := fun d hd => (hrest d hd).1
  cases cs with
  | nil => cases hread
  | cons c cs =>
      have hc : isNumberChar c = true := hcs c (by simp)
      have hcs' : ∀ d ∈ cs, isNumberChar d = true := fun d hd => hcs d (List.mem_cons_of_mem c hd)
      have hblank := isBlank_of_isNumberChar hc
      have hpunctuation := punctuation?_of_isNumberChar hc
      have hquote : c ≠ '"' := by
        rintro rfl
        exact absurd hc (by decide)
      rw [List.cons_append, Token.lexFrom]
      simp [hblank, hpunctuation, hquote, hc, takeWhile_append_of_apart hcs' hend,
        dropWhile_append_of_apart hcs' hend, numberToken, hread]

theorem lexFrom_quote {codes : List Nat} (h : scanString cs [] = some (codes, rest))
    (done : List Token) : Token.lexFrom done ('"' :: cs) =
      Token.lexFrom (.text ((decodeUnits codes).map String.ofList) :: done) rest := by
  have hpunctuation : punctuation? '"' = none := rfl
  rw [Token.lexFrom, if_neg (by decide)]
  simp only [hpunctuation]
  rw [if_pos (by decide)]
  split
  · next codes' rest' hscan =>
      rw [h] at hscan
      cases hscan
      rfl
  · next hscan =>
      rw [h] at hscan
      cases hscan

/-- A text in quotes. -/
theorem spells_label (s : String) : Spells (label (some s)) [.text (some s)] := by
  intro done rest _
  have hlabel : label (some s) ++ rest = '"' :: (s.toList.flatMap escaped ++ '"' :: rest) := by
    simp [label, quoted]
  rw [hlabel, lexFrom_quote (scanString_escaped s.toList rest []), List.reverse_nil,
    List.nil_append, decodeUnits_toNat, Option.map_some, String.ofList_toList]
  rfl

end SetCover.Json
