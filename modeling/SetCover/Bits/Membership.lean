import SetCover.Bits

/-!
# The members of bit vectors

What each operation on bit vectors does to their members.

* `get_set`, `get_clear`, `get_flip`, `get_assign`: a change concerns one member, and none outside
  of the width.
* `get_complement`, `get_xor`: the members within the width, turned over or compared.
* `ext_stored`: a vector is determined by its width and its stored bits.
* `Clean`: no unused bit is one; `Clean.stored_eq` says that then all stored bits are members.
* `get_of_ofIds?`: the vector of a set has the members of the set below its width.
-/

namespace SetCover

namespace Bits

variable {size : Nat}

/-! ## Changes at one place -/

theorem width_changeAt (b : Bits size) (i : Nat) (change : UInt64 → UInt64) :
    (b.changeAt i change).width = b.width := by
  unfold changeAt
  split <;> rfl

/-- A change of a word that changes nothing but one bit changes nothing but one place. -/
theorem stored_changeAt {b : Bits size} {i : Nat} {change : UInt64 → UInt64}
    (value : Bool → Bool)
    (hchange : ∀ w j, j < 64 →
      bitOf (change w) j = if i % 64 = j then value (bitOf w j) else bitOf w j) (j : Nat) :
    (b.changeAt i change).stored j =
      if i = j ∧ i < b.width then value (b.stored j) else b.stored j := by
  unfold changeAt
  split
  · next h =>
      have hw : i / 64 < size := by
        have := b.width_le
        omega
      simp only [stored, Vector.getElem?_set, h, and_true]
      by_cases hword : i / 64 = j / 64
      · have hget : b.words[j / 64]? = some b.words[i / 64] := by
          rw [← hword]
          exact Vector.getElem?_eq_getElem hw
        rw [if_pos hword, hget, Option.getD_some, Option.getD_some, hchange _ _ (by omega)]
        have hplace : i % 64 = j % 64 ↔ i = j := by omega
        simp only [hplace]
      · have hne : i ≠ j := fun e => hword (congrArg (· / 64) e)
        rw [if_neg hword, if_neg hne]
  · next h => rw [if_neg (fun hi => h hi.2)]

@[simp] theorem width_set (b : Bits size) (i : Nat) : (b.set i).width = b.width :=
  width_changeAt ..

@[simp] theorem width_clear (b : Bits size) (i : Nat) : (b.clear i).width = b.width :=
  width_changeAt ..

@[simp] theorem width_flip (b : Bits size) (i : Nat) : (b.flip i).width = b.width :=
  width_changeAt ..

theorem stored_set (b : Bits size) (i j : Nat) :
    (b.set i).stored j = if i = j ∧ i < b.width then true else b.stored j := by
  refine stored_changeAt (fun _ => true) (fun w k hk => ?_) j
  rw [bitOf_or hk, bitOf_oneBit (by omega) hk]
  split <;> simp [*]

theorem stored_clear (b : Bits size) (i j : Nat) :
    (b.clear i).stored j = if i = j ∧ i < b.width then false else b.stored j := by
  refine stored_changeAt (fun _ => false) (fun w k hk => ?_) j
  rw [bitOf_and hk, bitOf_not hk, bitOf_oneBit (by omega) hk]
  split <;> simp [*]

theorem stored_flip (b : Bits size) (i j : Nat) :
    (b.flip i).stored j = if i = j ∧ i < b.width then !b.stored j else b.stored j := by
  refine stored_changeAt Bool.not (fun w k hk => ?_) j
  rw [bitOf_xor hk, bitOf_oneBit (by omega) hk]
  split <;> simp [*]

/-- A number below the width becomes a member; nothing else changes. -/
theorem get_set (b : Bits size) (i j : Nat) :
    (b.set i).get j = if i = j ∧ i < b.width then true else b.get j := by
  rw [get, width_set, stored_set]
  split
  · next h => simp [← h.1, h.2]
  · rfl

/-- A number is no member any more; nothing else changes. -/
theorem get_clear (b : Bits size) (i j : Nat) :
    (b.clear i).get j = if i = j then false else b.get j := by
  rw [get, width_clear, stored_clear, get]
  by_cases hw : j < b.width
  · by_cases hij : i = j <;> simp [hij, hw]
  · have hno : decide (j < b.width) = false := by simpa using hw
    rw [hno, Bool.false_and, Bool.false_and, ite_self]

/-- A number below the width becomes a member if it was none; nothing else changes. -/
theorem get_flip (b : Bits size) (i j : Nat) :
    (b.flip i).get j = if i = j ∧ i < b.width then !b.get j else b.get j := by
  rw [get, width_flip, stored_flip, get]
  split
  · next h => simp [← h.1, h.2]
  · rfl

/-- A number below the width is a member afterwards as `value` says; nothing else changes. -/
theorem get_assign (b : Bits size) (i j : Nat) (value : Bool) :
    (b.assign i value).get j = if i = j ∧ i < b.width then value else b.get j := by
  unfold assign
  cases value
  · rw [if_neg (by simp), get_clear]
    by_cases hij : i = j
    · subst hij
      by_cases hw : i < b.width
      · simp [hw]
      · simp [hw, get]
    · simp [hij]
  · rw [if_pos rfl, get_set]

@[simp] theorem width_assign (b : Bits size) (i : Nat) (value : Bool) :
    (b.assign i value).width = b.width := by
  unfold assign
  split <;> simp

/-! ## Whole vectors -/

@[simp] theorem width_truncate (b : Bits size) : b.truncate.width = b.width := rfl

/-- Unused bits are zero afterwards, and the others stay. -/
theorem stored_truncate (b : Bits size) (i : Nat) :
    b.truncate.stored i = (decide (i < b.width) && b.stored i) := by
  simp only [stored, truncate, Vector.getElem?_mapIdx]
  cases hword : b.words[i / 64]? with
  | none => simp [bitOf_zero (show i % 64 < 64 by omega)]
  | some w =>
      simp only [Option.map_some, Option.getD_some]
      rw [bitOf_and (by omega), bitOf_lowBits (by omega), Bool.and_comm]
      congr 1
      simp only [decide_eq_decide]
      omega

@[simp] theorem get_truncate (b : Bits size) (i : Nat) : b.truncate.get i = b.get i := by
  rw [get, stored_truncate, width_truncate, get]
  cases decide (i < b.width) <;> simp

@[simp] theorem width_complement (b : Bits size) : b.complement.width = b.width := rfl

/-- The members are turned over within the width. -/
theorem get_complement (b : Bits size) (i : Nat) :
    b.complement.get i = (decide (i < b.width) && !b.get i) := by
  rw [complement, get_truncate, get, get]
  by_cases hi : i < b.width
  · have hw : i / 64 < size := by
      have := b.width_le
      omega
    simp [hi, stored, hw, bitOf_not (show i % 64 < 64 by omega)]
  · simp [hi]

@[simp] theorem width_xor (a b : Bits size) : (a.xor b).width = min a.width b.width := rfl

/-- The members of exactly one of two vectors, within the smaller width. -/
theorem get_xor (a b : Bits size) (i : Nat) :
    (a.xor b).get i = (decide (i < min a.width b.width) && (a.get i ^^ b.get i)) := by
  rw [xor, get_truncate, get, get, get]
  by_cases hi : i < min a.width b.width
  · have ha : i < a.width := by omega
    have hb : i < b.width := by omega
    have hw : i / 64 < size := by
      have := a.width_le
      omega
    simp [hi, ha, hb, stored, hw, bitOf_xor (show i % 64 < 64 by omega)]
  · simp [hi]

/-- Vectors of one width that store the same bits are the same. -/
theorem ext_stored {a b : Bits size} (hwidth : a.width = b.width)
    (h : ∀ i, a.stored i = b.stored i) : a = b := by
  have hwords : a.words = b.words := by
    refine Vector.ext fun k hk => eq_of_bitOf fun j hj => ?_
    have hplace := h (64 * k + j)
    rw [stored, stored, show (64 * k + j) / 64 = k by omega,
      show (64 * k + j) % 64 = j by omega, Vector.getElem?_eq_getElem hk,
      Vector.getElem?_eq_getElem hk] at hplace
    exact hplace
  obtain ⟨words, width, hwidth_le⟩ := a
  subst hwords
  subst hwidth
  rfl

/-! ## Unused bits -/

/-- No unused bit is one. -/
def Clean (b : Bits size) : Prop := ∀ i, b.stored i = true → i < b.width

/-- The stored bits of a clean vector are its members. -/
theorem Clean.stored_eq {b : Bits size} (h : b.Clean) (i : Nat) : b.stored i = b.get i := by
  unfold get
  cases hi : b.stored i with
  | false => simp
  | true => simp [h i hi]

theorem clean_truncate (b : Bits size) : b.truncate.Clean := by
  intro i hi
  rw [stored_truncate] at hi
  simpa using (Bool.and_eq_true_iff.1 hi).1

theorem clean_complement (b : Bits size) : b.complement.Clean := clean_truncate _

theorem clean_xor (a b : Bits size) : (a.xor b).Clean := clean_truncate _

theorem Clean.set {b : Bits size} (h : b.Clean) (i : Nat) : (b.set i).Clean := by
  intro j hj
  rw [stored_set] at hj
  split at hj
  · next hij => simpa [← hij.1] using hij.2
  · simpa using h j hj

theorem Clean.clear {b : Bits size} (h : b.Clean) (i : Nat) : (b.clear i).Clean := by
  intro j hj
  rw [stored_clear] at hj
  split at hj
  · simp at hj
  · simpa using h j hj

theorem Clean.flip {b : Bits size} (h : b.Clean) (i : Nat) : (b.flip i).Clean := by
  intro j hj
  rw [stored_flip] at hj
  split at hj
  · next hij => simpa [← hij.1] using hij.2
  · simpa using h j hj

theorem Clean.assign {b : Bits size} (h : b.Clean) (i : Nat) (value : Bool) :
    (b.assign i value).Clean := by
  unfold Bits.assign
  split
  · exact h.set i
  · exact h.clear i

/-! ## Vectors of sets -/

theorem blank?_eq_ok {width : Nat} {b : Bits size} (h : blank? size width = .ok b) :
    width ≤ size * 64 ∧ b.width = width ∧ ∀ i, b.stored i = false := by
  unfold blank? at h
  split at h
  · next hw =>
      cases h
      refine ⟨hw, rfl, fun i => ?_⟩
      simp only [stored, Vector.getElem?_replicate]
      split <;> simp [bitOf_zero (show i % 64 < 64 by omega)]
  · cases h

theorem foldl_set (ids : List Nat) (b : Bits size) :
    (ids.foldl set b).width = b.width ∧ (b.Clean → (ids.foldl set b).Clean) ∧
      ∀ i, (ids.foldl set b).get i = true ↔ b.get i = true ∨ i ∈ ids ∧ i < b.width := by
  induction ids generalizing b with
  | nil => simp
  | cons a ids ih =>
      obtain ⟨h₁, h₂, h₃⟩ := ih (b.set a)
      refine ⟨by simpa using h₁, fun h => h₂ (h.set a), fun i => ?_⟩
      rw [List.foldl_cons, h₃, width_set, get_set, List.mem_cons]
      by_cases ha : a = i
      · subst ha
        by_cases hw : a < b.width <;> simp [hw]
      · simp [ha, Ne.symm ha]

theorem mem_takeWhile_lt {width : Nat} {l : List Nat} (h : l.Pairwise (· < ·)) {i : Nat} :
    i ∈ l.takeWhile (· < width) ↔ i ∈ l ∧ i < width := by
  induction l with
  | nil => simp
  | cons a l ih =>
      rw [List.pairwise_cons] at h
      rw [List.takeWhile_cons]
      split
      · next ha =>
          have ha : a < width := by simpa using ha
          rw [List.mem_cons, ih h.2, List.mem_cons]
          constructor
          · rintro (rfl | hi)
            · exact ⟨Or.inl rfl, ha⟩
            · exact ⟨Or.inr hi.1, hi.2⟩
          · rintro ⟨rfl | hi, hw⟩
            · exact Or.inl rfl
            · exact Or.inr ⟨hi, hw⟩
      · next ha =>
          have ha : width ≤ a := by simpa using ha
          constructor
          · intro hi
            simp at hi
          · rintro ⟨hi, hw⟩
            rcases List.mem_cons.1 hi with rfl | hi
            · omega
            · have := h.1 i hi
              omega

/-- The vector of a set has the members of the set below its width. -/
theorem get_of_ofIds? {ids : IdSet} {width : Nat} {b : Bits size}
    (h : ofIds? size ids width = .ok b) :
    b.width = width ∧ b.Clean ∧ ∀ i, b.get i = (ids.contains i && decide (i < width)) := by
  unfold ofIds? at h
  cases hblank : blank? size width with
  | error fault => rw [hblank] at h; cases h
  | ok start =>
      rw [hblank] at h
      have h : (ids.toList.takeWhile (· < width)).foldl set start = b := by
        simpa [bind, Except.bind, pure, Except.pure] using h
      obtain ⟨_, hwidth, hstored⟩ := blank?_eq_ok hblank
      obtain ⟨h₁, h₂, h₃⟩ := foldl_set (ids.toList.takeWhile (· < width)) start
      subst h
      refine ⟨h₁.trans hwidth, h₂ fun i hi => by simp [hstored] at hi, fun i => ?_⟩
      rw [Bool.eq_iff_iff, h₃, mem_takeWhile_lt ids.ascending, hwidth]
      simp [get, hstored, IdSet.mem_def]

end Bits

end SetCover
