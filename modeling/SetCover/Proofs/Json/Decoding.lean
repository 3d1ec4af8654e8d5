import Mathlib.Data.List.Forall2
import SetCover.Json.Decode
import SetCover.Json.Printer

/-!
# What decoded values look like

The values that a decoder takes, apart from how it takes them.

* `IsNatural`, `IsText`, `IsListOf`: a natural number, a text, a list of such values.
* `natural?_eq_some_iff`, `string?_eq_some_iff`, `list?_eq_some_iff`: decoding finds what the value
  is.
* `valuesOf`: the values of a key, in order.
* `without`: the fields of all other keys.
* `required?_eq_some_iff`, `withDefault?_eq_some_iff`: a key that occurs once, or may be missing.
-/

namespace SetCover.Json

/-! ## Single values -/

/-- The value is this number below a bound, written with digits only. -/
def IsNatural (bound : Nat) (v : Json) (n : Nat) : Prop :=
  ∃ digits, v = .number ⟨false, digits, none, none⟩ ∧ Nat.ofDigitChars 10 digits 0 = n ∧ n < bound

/-- The value is this text. -/
def IsText (v : Json) (s : String) : Prop := v = .text (some s)

/-- The value is an array, and its items are these one after another. -/
def IsListOf {α : Type} (Is : Json → α → Prop) (v : Json) (as : List α) : Prop :=
  ∃ items, v = .array items ∧ List.Forall₂ Is items as

theorem natural?_eq_some_iff (bound : Nat) (v : Json) (n : Nat) :
    natural? bound v = some n ↔ IsNatural bound v n := by
  constructor
  · intro h
    unfold natural? at h
    split at h
    · next digits =>
        rw [Option.ite_none_right_eq_some, Option.some_inj] at h
        obtain ⟨hlt, rfl⟩ := h
        exact ⟨digits, rfl, rfl, hlt⟩
    · cases h
  · rintro ⟨digits, rfl, rfl, hlt⟩
    exact if_pos hlt

theorem string?_eq_some_iff (v : Json) (s : String) : string? v = some s ↔ IsText v s := by
  cases v <;> simp [string?, IsText]

theorem mapM_eq_some_iff {α : Type} {item? : Json → Option α} {items : List Json} {as : List α} :
    items.mapM item? = some as ↔ List.Forall₂ (fun v a => item? v = some a) items as := by
  induction items generalizing as with
  | nil => cases as <;> simp
  | cons v items ih =>
      rw [List.mapM_cons, List.forall₂_cons_left_iff]
      simp only [Option.bind_eq_bind, Option.bind_eq_some_iff, Option.pure_def, Option.some_inj, ih]
      constructor
      · rintro ⟨a, hv, as, hitems, rfl⟩
        exact ⟨a, as, hv, hitems, rfl⟩
      · rintro ⟨a, as, hv, hitems, rfl⟩
        exact ⟨a, hv, as, hitems, rfl⟩

theorem list?_eq_some_iff {α : Type} {item? : Json → Option α} {Is : Json → α → Prop}
    (hitem : ∀ v a, item? v = some a ↔ Is v a) (v : Json) (as : List α) :
    list? item? v = some as ↔ IsListOf Is v as := by
  have hIs : (fun v a => item? v = some a) = Is := by
    funext v a
    exact propext (hitem v a)
  cases v with
  | array items => simp [list?, IsListOf, mapM_eq_some_iff, hIs]
  | _ => simp [list?, IsListOf]

/-! ## What is written for values -/

theorem isNatural_ofNat {bound n : Nat} (h : n < bound) : IsNatural bound (.ofNat n) n := by
  refine ⟨(toString n).toList, rfl, ?_, h⟩
  rw [Nat.toString_eq_repr, Nat.toList_repr, Nat.ofDigitChars_ten_toDigits]

theorem isListOf_map {α : Type} {Is : Json → α → Prop} {write : α → Json} {as : List α}
    (h : ∀ a ∈ as, Is (write a) a) : IsListOf Is (.array (as.map write)) as :=
  ⟨as.map write, rfl, List.forall₂_map_left_iff.mpr (List.forall₂_same.mpr h)⟩

theorem isListOf_ofNats {bound : Nat} {ns : List Nat} (h : ∀ n ∈ ns, n < bound) :
    IsListOf (IsNatural bound) (.ofNats ns) ns :=
  isListOf_map fun n hn => isNatural_ofNat (h n hn)

/-! ## Fields -/

variable {fields fields' : List (Option String × Json)} {key : String} {keys : List String}

/-- The values of a key, in order. -/
def valuesOf (fields : List (Option String × Json)) (key : String) : List Json :=
  (fields.filter fun f => f.1 == some key).map (·.2)

/-- The key occurs once, with such a value. -/
def HasField {α : Type} (Is : Json → α → Prop) (fields : List (Option String × Json))
    (key : String) (a : α) : Prop := ∃ v, valuesOf fields key = [v] ∧ Is v a

theorem fieldValue_eq (fields : List (Option String × Json)) (key : String) :
    fieldValue fields key = (valuesOf fields key).head? := by
  rw [fieldValue, valuesOf, List.head?_map, List.head?_filter]

theorem keysInOrder_iff :
    keysInOrder keys fields = true ↔
      (∀ f ∈ fields, f.1.isSome = true) ∧ ∀ key ∈ keys, (valuesOf fields key).length ≤ 1 := by
  simp [keysInOrder, valuesOf, List.countP_eq_length_filter]

/-- The fields of all other keys. -/
def without (fields : List (Option String × Json)) (key : String) : List (Option String × Json) :=
  fields.filter fun f => f.1 != some key

theorem valuesOf_without {other : String} (h : other ≠ key) :
    valuesOf (without fields key) other = valuesOf fields other := by
  rw [valuesOf, without, List.filter_filter, valuesOf]
  congr 1
  refine List.filter_congr fun f _ => ?_
  by_cases hother : f.1 = some other
  · simp [hother, h]
  · simp [hother]

theorem isSome_without (fields : List (Option String × Json)) (key : String) :
    (∀ f ∈ without fields key, f.1.isSome = true) ↔ ∀ f ∈ fields, f.1.isSome = true := by
  constructor
  · intro h f hf
    by_cases hkey : f.1 = some key
    · rw [hkey]
      rfl
    · exact h f (List.mem_filter.mpr ⟨hf, by simpa using hkey⟩)
  · intro h f hf
    exact h f (List.mem_filter.mp hf).1

/-- An object is decoded by the values of the known keys, as long as every key has characters. -/
theorem record?_congr
    (hkeys : (∀ f ∈ fields', f.1.isSome = true) ↔ ∀ f ∈ fields, f.1.isSome = true)
    (hvalues : ∀ key ∈ keys, valuesOf fields' key = valuesOf fields key) :
    record? keys (.object fields') = record? keys (.object fields) := by
  have horder : keysInOrder keys fields' = keysInOrder keys fields := by
    rw [Bool.eq_iff_iff, keysInOrder_iff, keysInOrder_iff, hkeys]
    refine and_congr_right fun _ => forall₂_congr fun key hkey => ?_
    rw [hvalues key hkey]
  have hfound : keys.map (fieldValue fields') = keys.map (fieldValue fields) := by
    refine List.map_congr_left fun key hkey => ?_
    rw [fieldValue_eq, fieldValue_eq, hvalues key hkey]
  rw [record?, record?, horder, hfound]

theorem required?_eq_some_iff {α : Type} {value? : Json → Option α} {Is : Json → α → Prop}
    (hvalue : ∀ v a, value? v = some a ↔ Is v a) (honce : (valuesOf fields key).length ≤ 1)
    {a : α} : required? value? (fieldValue fields key) = some a ↔ HasField Is fields key a := by
  rw [fieldValue_eq, HasField]
  cases hvalues : valuesOf fields key with
  | nil => simp [required?]
  | cons v vs =>
      obtain rfl : vs = [] := by
        rw [hvalues] at honce
        exact List.length_eq_zero_iff.mp (Nat.le_zero.mp (Nat.le_of_succ_le_succ honce))
      simp [required?, hvalue]

theorem withDefault?_eq_some_iff {α : Type} {value? : Json → Option α} {Is : Json → α → Prop}
    (hvalue : ∀ v a, value? v = some a ↔ Is v a) (honce : (valuesOf fields key).length ≤ 1)
    {default a : α} :
    withDefault? default value? (fieldValue fields key) = some a ↔
      HasField Is fields key a ∨ valuesOf fields key = [] ∧ a = default := by
  rw [← required?_eq_some_iff hvalue honce, fieldValue_eq]
  cases valuesOf fields key with
  | nil => simp [required?, withDefault?, eq_comm]
  | cons v vs => simp [required?, withDefault?]

end SetCover.Json
