import SetCover.Proofs.Json.Lexing

/-!
# Printed values are read back

A value whose texts have characters and whose numbers are written as numbers is found again in what
is printed for it.

* `Writable`: such a value.
* `Forms`: some tokens are read as this value, within any open containers.
* `Prints`: some characters are taken as tokens that are read as this value.
* `ofText?_compactText`: the whole text of a value is read as that value.
-/

namespace SetCover.Json

variable {v : Json} {ts ts' : List Token} {items : List Json} {fields : List (Option String × Json)}

/-- Every text and every key has characters, and every number is written as a number. -/
inductive Writable : Json → Prop
  | null : Writable .null
  | bool (b : Bool) : Writable (.bool b)
  | number {n : Number} (hchars : ∀ c ∈ numeral n, isNumberChar c = true)
      (hread : number? (numeral n) = some n) : Writable (.number n)
  | text (s : String) : Writable (.text (some s))
  | array {items : List Json} (h : ∀ v ∈ items, Writable v) : Writable (.array items)
  | object {fields : List (String × Json)} (h : ∀ f ∈ fields, Writable f.2) :
      Writable (.ofFields fields)

/-! ## Reading tokens -/

/-- Reads on from where a reader stands. -/
def resume : Progress → List Token → Option (Json × List Token)
  | .done v, rest => some (v, rest)
  | .going next outer, rest => readFrom next outer rest

theorem readFrom_cons {next : Expect} {outer : List Frame} {t : Token} {progress : Progress}
    (h : step outer next t = some progress) (rest : List Token) :
    readFrom next outer (t :: rest) = resume progress rest := by
  cases progress <;> simp [readFrom, h, resume]

/-- The tokens are read as this value, within any open containers. -/
def Forms (ts : List Token) (v : Json) : Prop :=
  ∀ outer rest, readFrom .value outer (ts ++ rest) = resume (complete v outer) rest

/-- The tokens are read as these items and the end of their array, after some items. -/
def FormsItems (ts : List Token) (items : List Json) : Prop :=
  ∀ before outer rest, readFrom .value (.array before :: outer) (ts ++ rest) =
    resume (complete (.array (before.reverse ++ items)) outer) rest

/-- The tokens are read as these fields and the end of their object, after some fields. -/
def FormsFields (ts : List Token) (fields : List (Option String × Json)) : Prop :=
  ∀ before outer rest, readFrom (.key before) outer (ts ++ rest) =
    resume (complete (.object (before.reverse ++ fields)) outer) rest

theorem FormsItems.last (h : Forms ts v) : FormsItems (ts ++ [.closeArray]) [v] := by
  intro before outer rest
  rw [List.append_assoc, h]
  show readFrom (.afterItem (v :: before)) outer (.closeArray :: rest) = _
  rw [readFrom_cons rfl, List.reverse_cons]

theorem FormsItems.cons (h : Forms ts v) (h' : FormsItems ts' items) :
    FormsItems (ts ++ .comma :: ts') (v :: items) := by
  intro before outer rest
  rw [List.append_assoc, h]
  show readFrom (.afterItem (v :: before)) outer (.comma :: (ts' ++ rest)) = _
  rw [readFrom_cons rfl]
  show readFrom .value (.array (v :: before) :: outer) (ts' ++ rest) = _
  rw [h', List.reverse_cons, List.append_assoc]
  rfl

/-- The key of a field, and the colon after it. -/
theorem readFrom_field (h : Forms ts v) (key : Option String)
    (before : List (Option String × Json)) (outer : List Frame) (rest : List Token) :
    readFrom (.key before) outer (.text key :: .colon :: (ts ++ rest)) =
      readFrom (.afterField ((key, v) :: before)) outer rest := by
  rw [readFrom_cons rfl]
  show readFrom (.colon before key) outer (.colon :: (ts ++ rest)) = _
  rw [readFrom_cons rfl]
  exact h (.object before key :: outer) rest

theorem FormsFields.last {key : Option String} (h : Forms ts v) :
    FormsFields (.text key :: .colon :: (ts ++ [.closeObject])) [(key, v)] := by
  intro before outer rest
  rw [List.cons_append, List.cons_append, List.append_assoc, readFrom_field h]
  show readFrom _ outer (.closeObject :: rest) = _
  rw [readFrom_cons rfl, List.reverse_cons]

theorem FormsFields.cons {key : Option String} (h : Forms ts v) (h' : FormsFields ts' fields) :
    FormsFields (.text key :: .colon :: (ts ++ .comma :: ts')) ((key, v) :: fields) := by
  intro before outer rest
  rw [List.cons_append, List.cons_append, List.append_assoc, readFrom_field h]
  show readFrom _ outer (.comma :: (ts' ++ rest)) = _
  rw [readFrom_cons rfl]
  show readFrom (.key ((key, v) :: before)) outer (ts' ++ rest) = _
  rw [h', List.reverse_cons, List.append_assoc]
  rfl

/-- Tokens of items do not close the array that was just opened. -/
theorem FormsItems.forms (h : FormsItems ts items) : Forms (.openArray :: ts) (.array items) := by
  intro outer rest
  show readFrom .value outer (.openArray :: (ts ++ rest)) =
    resume (complete (.array ([].reverse ++ items)) outer) rest
  rw [readFrom_cons rfl, ← h]
  cases ts with
  | nil => cases h [] [] []
  | cons t ts =>
      cases t with
      | closeArray => cases h [] [] []
      | _ => rfl

/-- Tokens of fields do not close the object that was just opened. -/
theorem FormsFields.forms (h : FormsFields ts fields) :
    Forms (.openObject :: ts) (.object fields) := by
  intro outer rest
  show readFrom .value outer (.openObject :: (ts ++ rest)) =
    resume (complete (.object ([].reverse ++ fields)) outer) rest
  rw [readFrom_cons rfl, ← h]
  cases ts with
  | nil => cases h [] [] []
  | cons t ts =>
      cases t with
      | closeObject => cases h [] [] []
      | _ => rfl

/-! ## Printing -/

/-- The characters are taken as tokens that are read as this value. -/
def Prints (v : Json) : Prop := ∃ ts, Spells (compact v) ts ∧ Forms ts v

theorem exists_formsItems (h : ∀ v ∈ items, Prints v) (hne : items ≠ []) :
    ∃ ts, Spells (joined [','] (compactItems items) ++ [']']) ts ∧ FormsItems ts items := by
  induction items with
  | nil => exact absurd rfl hne
  | cons v items ih =>
      obtain ⟨⟨ts, hspells, hforms⟩, hitems⟩ := List.forall_mem_cons.mp h
      cases items with
      | nil => exact ⟨_, hspells.append_cons rfl spells_nil, .last hforms⟩
      | cons w items =>
          obtain ⟨ts', hspells', hforms'⟩ := ih hitems (List.cons_ne_nil w items)
          refine ⟨_, ?_, .cons hforms hforms'⟩
          simpa [compactItems, joined] using hspells.append_cons rfl hspells'

theorem exists_formsFields {fields : List (String × Json)} (h : ∀ f ∈ fields, Prints f.2)
    (hne : fields ≠ []) :
    ∃ ts, Spells (joined [','] (compactFields (fields.map fun (key, v) => (some key, v))) ++
        ['\x7d']) ts ∧ FormsFields ts (fields.map fun (key, v) => (some key, v)) := by
  induction fields with
  | nil => exact absurd rfl hne
  | cons f fields ih =>
      obtain ⟨⟨ts, hspells, hforms⟩, hfields⟩ := List.forall_mem_cons.mp h
      have hkey := spells_label f.1
      cases fields with
      | nil =>
          refine ⟨_, ?_, .last hforms⟩
          simpa [compactFields, joined] using
            hkey.append_cons rfl (hspells.append_cons rfl spells_nil)
      | cons w fields =>
          obtain ⟨ts', hspells', hforms'⟩ := ih hfields (List.cons_ne_nil w fields)
          refine ⟨_, ?_, .cons hforms hforms'⟩
          simpa [compactFields, joined] using
            hkey.append_cons rfl (hspells.append_cons rfl hspells')

theorem prints_array (h : ∀ v ∈ items, Prints v) : Prints (.array items) := by
  by_cases hne : items = []
  · subst hne
    refine ⟨_, (spells_nil.cons rfl).cons rfl, fun outer rest => ?_⟩
    show readFrom .value outer (.openArray :: .closeArray :: rest) = _
    rw [readFrom_cons rfl]
    exact readFrom_cons rfl rest
  · obtain ⟨ts, hspells, hforms⟩ := exists_formsItems h hne
    refine ⟨_, ?_, hforms.forms⟩
    simpa [compact] using hspells.cons (c := '[') rfl

theorem prints_ofFields {fields : List (String × Json)} (h : ∀ f ∈ fields, Prints f.2) :
    Prints (.ofFields fields) := by
  by_cases hne : fields = []
  · subst hne
    refine ⟨_, (spells_nil.cons rfl).cons rfl, fun outer rest => ?_⟩
    show readFrom .value outer (.openObject :: .closeObject :: rest) = _
    rw [readFrom_cons rfl]
    exact readFrom_cons rfl rest
  · obtain ⟨ts, hspells, hforms⟩ := exists_formsFields h hne
    refine ⟨_, ?_, hforms.forms⟩
    simpa [ofFields, compact] using hspells.cons (c := '\x7b') rfl

theorem Writable.prints (h : Writable v) : Prints v := by
  induction h with
  | null =>
      exact ⟨[.null], spells_word rfl rfl (by decide) rfl rfl rfl,
        fun outer rest => readFrom_cons rfl rest⟩
  | bool b =>
      refine ⟨[.bool b], ?_, fun outer rest => readFrom_cons rfl rest⟩
      cases b <;> exact spells_word rfl rfl (by decide) rfl rfl rfl
  | number hchars hread =>
      refine ⟨[.number _], ?_, fun outer rest => readFrom_cons rfl rest⟩
      simpa [compact] using spells_numeral hread hchars
  | text s =>
      refine ⟨[.text (some s)], ?_, fun outer rest => readFrom_cons rfl rest⟩
      simpa [compact] using spells_label s
  | array _ ih => exact prints_array ih
  | object _ ih => exact prints_ofFields ih

/-- The whole text of a value is read as that value. -/
theorem ofText?_compactText (h : Writable v) : ofText? (compactText v) = some (v, true) := by
  obtain ⟨ts, hspells, hforms⟩ := h.prints
  have hlex : Token.lex (compact v) = ts := by
    have := hspells [] [] apart_nil
    simpa [Token.lex, Token.lexFrom] using this
  have hread := hforms [] []
  rw [List.append_nil] at hread
  rw [ofText?, compactText, String.toList_ofList, hlex, ofTokens?, hread]
  rfl

/-! ## Values that are written -/

theorem writable_ofString (s : String) : Writable (.ofString s) := .text s

theorem numeral_ofNat (n : Nat) :
    numeral ⟨false, (toString n).toList, none, none⟩ = Nat.toDigits 10 n := by
  simp [numeral, Nat.toString_eq_repr, Nat.toList_repr]

theorem writable_ofNat (n : Nat) : Writable (.ofNat n) := by
  refine .number (fun c hc => ?_) ?_
  · rw [numeral_ofNat] at hc
    have hdigit : c.isDigit = true := Nat.isDigit_of_mem_toDigits (by decide) (by decide) hc
    simp [isNumberChar, hdigit]
  · rw [numeral_ofNat, number?_toDigits, Nat.toString_eq_repr, Nat.toList_repr]

theorem writable_map {α : Type} {write : α → Json} {as : List α}
    (h : ∀ a ∈ as, Writable (write a)) : Writable (.array (as.map write)) := by
  refine .array fun v hv => ?_
  obtain ⟨a, ha, rfl⟩ := List.mem_map.mp hv
  exact h a ha

theorem writable_ofNats (ns : List Nat) : Writable (.ofNats ns) :=
  writable_map fun n _ => writable_ofNat n

end SetCover.Json
