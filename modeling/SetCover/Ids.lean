/-!
# Finite sets of ids

An `IdSet` is a finite set of natural numbers, kept as its strictly ascending list, so that two
sets are equal exactly when they have the same members.

* `ext_mem`: sets with the same members are equal.
* `mem_insert`, `mem_erase`, `mem_filter`, `mem_ofList`, `mem_range`: what each operation does to
  membership.
* `ofList_toList`: reading a set back from its own list changes nothing.
-/

namespace SetCover

/-- A finite set of natural numbers, kept as its strictly ascending list. -/
structure IdSet where
  /-- The members, smallest first. -/
  toList : List Nat
  /-- Every member is smaller than the members after it. -/
  ascending : toList.Pairwise (· < ·)
  deriving DecidableEq

namespace IdSet

instance : Membership Nat IdSet := ⟨fun s a => a ∈ s.toList⟩

instance (a : Nat) (s : IdSet) : Decidable (a ∈ s) :=
  inferInstanceAs (Decidable (a ∈ s.toList))

theorem mem_def {a : Nat} {s : IdSet} : a ∈ s ↔ a ∈ s.toList := Iff.rfl

/-! ## Equality -/

/-- A strictly ascending list is determined by its members. -/
theorem eq_of_mem_iff : ∀ {l r : List Nat}, l.Pairwise (· < ·) → r.Pairwise (· < ·) →
    (∀ a, a ∈ l ↔ a ∈ r) → l = r
  | [], [], _, _, _ => rfl
  | [], b :: _, _, _, h => by simpa using (h b).2
  | a :: _, [], _, _, h => by simpa using (h a).1
  | a :: l, b :: r, hl, hr, h => by
      rw [List.pairwise_cons] at hl hr
      have hab : a = b := by
        have h₁ := (h a).1 (by simp)
        have h₂ := (h b).2 (by simp)
        rcases List.mem_cons.1 h₁ with e | hm
        · exact e
        · rcases List.mem_cons.1 h₂ with e | hn
          · exact e.symm
          · have := hr.1 a hm
            have := hl.1 b hn
            omega
      subst hab
      refine congrArg (a :: ·) (eq_of_mem_iff hl.2 hr.2 fun c => ?_)
      constructor
      · intro hc
        have hlt := hl.1 c hc
        rcases List.mem_cons.1 ((h c).1 (by simp [hc])) with e | hm
        · omega
        · exact hm
      · intro hc
        have hlt := hr.1 c hc
        rcases List.mem_cons.1 ((h c).2 (by simp [hc])) with e | hm
        · omega
        · exact hm

theorem toList_injective {s t : IdSet} (h : s.toList = t.toList) : s = t := by
  cases s; cases t; cases h; rfl

/-- Sets with the same members are equal. -/
theorem ext_mem {s t : IdSet} (h : ∀ a, a ∈ s ↔ a ∈ t) : s = t :=
  toList_injective (eq_of_mem_iff s.ascending t.ascending h)

/-! ## Building sets -/

/-- The set without members. -/
def empty : IdSet := ⟨[], .nil⟩

instance : EmptyCollection IdSet := ⟨empty⟩

instance : Inhabited IdSet := ⟨empty⟩

@[simp] theorem not_mem_empty {a : Nat} : a ∉ empty := List.not_mem_nil

/-- Puts `a` into an ascending list, at its place; a list that has `a` already stays as it is. -/
def insertSorted (a : Nat) : List Nat → List Nat
  | [] => [a]
  | b :: r => if a < b then a :: b :: r else if a = b then b :: r else b :: insertSorted a r

theorem mem_insertSorted {a c : Nat} {l : List Nat} :
    c ∈ insertSorted a l ↔ c = a ∨ c ∈ l := by
  induction l with
  | nil => simp [insertSorted]
  | cons b r ih =>
      unfold insertSorted
      split
      · simp
      · split
        · next h => subst h; simp
        · simp only [List.mem_cons, ih]
          constructor
          · rintro (h | h | h) <;> simp [h]
          · rintro (h | h | h) <;> simp [h]

theorem pairwise_insertSorted {a : Nat} {l : List Nat} (h : l.Pairwise (· < ·)) :
    (insertSorted a l).Pairwise (· < ·) := by
  induction l with
  | nil => simp [insertSorted]
  | cons b r ih =>
      rw [List.pairwise_cons] at h
      unfold insertSorted
      split
      · next hab =>
          refine List.pairwise_cons.2 ⟨fun c hc => ?_, List.pairwise_cons.2 h⟩
          rcases List.mem_cons.1 hc with e | hm
          · omega
          · have := h.1 c hm
            omega
      · split
        · exact List.pairwise_cons.2 h
        · refine List.pairwise_cons.2 ⟨fun c hc => ?_, ih h.2⟩
          rcases mem_insertSorted.1 hc with e | hm
          · omega
          · exact h.1 c hm

/-- The set with `a` added. -/
def insert (a : Nat) (s : IdSet) : IdSet :=
  ⟨insertSorted a s.toList, pairwise_insertSorted s.ascending⟩

@[simp] theorem mem_insert {a c : Nat} {s : IdSet} : c ∈ s.insert a ↔ c = a ∨ c ∈ s :=
  mem_insertSorted

/-- The members of a list, in whatever order and however often they occur in it. -/
def ofList (l : List Nat) : IdSet := l.foldr insert empty

@[simp] theorem mem_ofList {a : Nat} {l : List Nat} : a ∈ ofList l ↔ a ∈ l := by
  induction l with
  | nil => simp [ofList]
  | cons b r ih => simp only [ofList, List.foldr_cons, mem_insert, List.mem_cons] at ih ⊢; rw [ih]

@[simp] theorem ofList_toList (s : IdSet) : ofList s.toList = s :=
  ext_mem fun _ => mem_ofList

/-- The members that satisfy `p`. -/
def filter (p : Nat → Bool) (s : IdSet) : IdSet :=
  ⟨s.toList.filter p, s.ascending.filter p⟩

@[simp] theorem mem_filter {p : Nat → Bool} {a : Nat} {s : IdSet} :
    a ∈ s.filter p ↔ a ∈ s ∧ p a = true := List.mem_filter

/-- The set with `a` taken out. -/
def erase (a : Nat) (s : IdSet) : IdSet := s.filter (· != a)

@[simp] theorem mem_erase {a c : Nat} {s : IdSet} : c ∈ s.erase a ↔ c ∈ s ∧ c ≠ a := by
  simp [erase]

/-- All numbers below `n`. -/
def range (n : Nat) : IdSet := ⟨List.range n, List.pairwise_lt_range⟩

@[simp] theorem mem_range {a n : Nat} : a ∈ range n ↔ a < n := List.mem_range

/-! ## Reading sets -/

/-- Number of members. -/
def card (s : IdSet) : Nat := s.toList.length

/-- Whether the set has no members. -/
def isEmpty (s : IdSet) : Bool := s.toList.isEmpty

/-- Whether `a` is a member. -/
def contains (s : IdSet) (a : Nat) : Bool := s.toList.contains a

@[simp] theorem contains_iff {a : Nat} {s : IdSet} : s.contains a = true ↔ a ∈ s := by
  simp [contains, mem_def]

theorem contains_eq_decide (s : IdSet) (a : Nat) : s.contains a = decide (a ∈ s) := by
  rw [Bool.eq_iff_iff]
  simp

theorem isEmpty_iff {s : IdSet} : s.isEmpty = true ↔ s = empty := by
  constructor
  · intro h
    exact toList_injective (List.isEmpty_iff.1 h)
  · rintro rfl
    rfl

/-- Ids listed with commas. -/
def render (separator : String) (s : IdSet) : String :=
  separator.intercalate (s.toList.map toString)

end IdSet

end SetCover
