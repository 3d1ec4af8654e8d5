import SetCover.Genetic.Mates

/-!
# Heaps of mates

An entry that moves through a heap is out of place in one spot only. On its way up, everything else
is in order, and the entries below the spot do not exceed the one above it either. On its way down
the entries below the spot are not in order with it, and it is the larger of those that takes its
place; it does not stop before a leaf, where nothing is below it and the way up starts.

* `Heap.Ordered`: no entry exceeds the one above it.
* `Heap.Ordered.le_root`: so no entry exceeds the root.
* `Heap.siftUp_spec`, `Heap.siftDown_spec`: the two ways.
* `Heap.insert_spec`, `Heap.dropRoot_spec`: an entry more, and the root less.
-/

namespace SetCover

namespace Ranked

variable {a b c : Ranked}

theorem le_iff : a.le b = true ↔
    a.distance < b.distance ∨ a.distance = b.distance ∧ a.index ≤ b.index := by
  simp [le]

theorem le_refl (a : Ranked) : a.le a = true := by
  simp [le_iff]

theorem le_trans (hab : a.le b = true) (hbc : b.le c = true) : a.le c = true := by
  rw [le_iff] at *
  omega

theorem le_total (a b : Ranked) : (a.le b || b.le a) = true := by
  rw [Bool.or_eq_true, le_iff, le_iff]
  omega

theorem le_of_not_le (h : ¬ a.le b = true) : b.le a = true := by
  rw [le_iff] at *
  omega

theorem eq_of_le_of_le (hab : a.le b = true) (hba : b.le a = true) : a = b := by
  obtain ⟨d, i⟩ := a
  obtain ⟨e, j⟩ := b
  rw [le_iff] at *
  simp only at hab hba
  have hd : d = e := by omega
  have hi : i = j := by omega
  rw [hd, hi]

end Ranked

namespace Heap

variable {h : Heap} {i j k : Nat} {e root : Ranked}

/-! ## Entries -/

theorem entry_eq (hi : i < h.size) : h.entry i = h[i] := by
  simp [entry, hi]

theorem exists_entry (he : e ∈ h) : ∃ i < h.size, h.entry i = e := by
  obtain ⟨i, hi, heq⟩ := Array.mem_iff_getElem.mp he
  exact ⟨i, hi, (entry_eq hi).trans heq⟩

theorem entry_swap (hi : i < h.size) (hj : j < h.size) (k : Nat) :
    Heap.entry (h.swapIfInBounds i j) k =
      if k = i then h.entry j else if k = j then h.entry i else h.entry k := by
  rw [Array.swapIfInBounds_def, dif_pos hi, dif_pos hj]
  simp only [entry, Array.getElem?_swap, Array.getElem?_eq_getElem hi,
    Array.getElem?_eq_getElem hj, eq_comm (a := k)]
  split
  · next hjk => split <;> simp_all
  · split
    · rfl
    · rfl

theorem swap_perm (hi : i < h.size) (hj : j < h.size) :
    (h.swapIfInBounds i j).toList.Perm h.toList := by
  rw [Array.swapIfInBounds_def, dif_pos hi, dif_pos hj]
  exact (Array.swap_perm hi hj).toList

/-! ## Order -/

/-- No entry exceeds the one above it. -/
def Ordered (h : Heap) : Prop :=
  ∀ j, 0 < j → j < h.size → (h.entry j).le (h.entry ((j - 1) / 2)) = true

theorem ordered_empty : Ordered #[] :=
  fun _ _ hj => absurd hj (Nat.not_lt_zero _)

theorem Ordered.le_root (hord : h.Ordered) (hroot : h[0]? = some root) (he : e ∈ h) :
    e.le root = true := by
  have hzero : h.entry 0 = root := by simp [entry, hroot]
  obtain ⟨i, hi, rfl⟩ := exists_entry he
  clear he
  induction i using Nat.strongRecOn with
  | ind i ih =>
      rcases Nat.eq_zero_or_pos i with rfl | hpos
      · rw [hzero]
        exact Ranked.le_refl root
      · exact Ranked.le_trans (hord i hpos hi) (ih ((i - 1) / 2) (by omega) (by omega))

/-- The entries below a place do not exceed the one above it. -/
def Bridged (h : Heap) (i : Nat) : Prop :=
  0 < i → ∀ j, j < h.size → 0 < j → (j - 1) / 2 = i →
    (h.entry j).le (h.entry ((i - 1) / 2)) = true

/-- All but the entry at one place are in order, and so are those below it. -/
structure OrderedAbove (h : Heap) (i : Nat) : Prop where
  others : ∀ j, 0 < j → j < h.size → j ≠ i → (h.entry j).le (h.entry ((j - 1) / 2)) = true
  bridged : h.Bridged i

/-- All but the entry at one place and those below it are in order. -/
structure OrderedAround (h : Heap) (i : Nat) : Prop where
  others : ∀ j, 0 < j → j < h.size → j ≠ i → (j - 1) / 2 ≠ i →
    (h.entry j).le (h.entry ((j - 1) / 2)) = true
  bridged : h.Bridged i

/-! ## Up -/

theorem OrderedAbove.step (ho : h.OrderedAbove i) (hi : i < h.size) (hpos : 0 < i)
    (hgt : ¬ (h.entry i).le (h.entry ((i - 1) / 2)) = true) :
    OrderedAbove (h.swapIfInBounds i ((i - 1) / 2)) ((i - 1) / 2) := by
  have hp : (i - 1) / 2 < h.size := by omega
  have hle := Ranked.le_of_not_le hgt
  constructor
  · intro j hj hlt hne
    rw [Array.size_swapIfInBounds] at hlt
    rw [entry_swap hi hp, entry_swap hi hp, if_neg hne]
    -- the exchange concerns the entry that came down, those below it, and the one beside it
    by_cases hji : j = i
    · subst hji
      rw [if_pos rfl, if_neg (by omega), if_pos rfl]
      exact hle
    · rw [if_neg hji]
      by_cases hbelow : (j - 1) / 2 = i
      · rw [if_pos hbelow]
        exact ho.bridged hpos j hlt hj hbelow
      · rw [if_neg hbelow]
        by_cases hbeside : (j - 1) / 2 = (i - 1) / 2
        · have hj' := ho.others j hj hlt hji
          rw [hbeside] at hj'
          rw [if_pos hbeside]
          exact Ranked.le_trans hj' hle
        · rw [if_neg hbeside]
          exact ho.others j hj hlt hji
  · intro hpos' j hlt hj hparent
    rw [Array.size_swapIfInBounds] at hlt
    have habove := ho.others ((i - 1) / 2) hpos' hp (by omega)
    rw [entry_swap hi hp, entry_swap hi hp, if_neg (show ((i - 1) / 2 - 1) / 2 ≠ i by omega),
      if_neg (show ((i - 1) / 2 - 1) / 2 ≠ (i - 1) / 2 by omega)]
    by_cases hji : j = i
    · rw [if_pos hji]
      exact habove
    · have hj' := ho.others j hj hlt hji
      rw [hparent] at hj'
      rw [if_neg hji, if_neg (show j ≠ (i - 1) / 2 by omega)]
      exact Ranked.le_trans hj' habove

/-- On its way up an entry comes to where it is in order. -/
theorem siftUp_spec (ho : h.OrderedAbove i) (hi : i < h.size) :
    (siftUp h i).Ordered ∧ (siftUp h i).toList.Perm h.toList := by
  induction h, i using siftUp.induct with
  | case1 h i hgt ih =>
      obtain ⟨hpos, hgt⟩ := hgt
      have hgt : ¬ (h.entry i).le (h.entry ((i - 1) / 2)) = true := by simpa using hgt
      obtain ⟨hord, hperm⟩ := ih (ho.step hi hpos hgt) (by simp; omega)
      rw [siftUp, if_pos ⟨hpos, by simpa using hgt⟩]
      exact ⟨hord, hperm.trans (swap_perm hi (by omega))⟩
  | case2 h i hstop =>
      rw [siftUp, if_neg hstop]
      refine ⟨fun j hpos hj => ?_, List.Perm.refl _⟩
      by_cases hji : j = i
      · subst hji
        refine Classical.byContradiction fun hgt => ?_
        exact hstop ⟨hpos, by simpa using hgt⟩
      · exact ho.others j hpos hj hji

/-! ## Down -/

theorem OrderedAround.step {c : Nat} (ho : h.OrderedAround i) (hc : c < h.size) (hpos : 0 < c)
    (hparent : (c - 1) / 2 = i)
    (hmax : ∀ j, j < h.size → 0 < j → (j - 1) / 2 = i → (h.entry j).le (h.entry c) = true) :
    OrderedAround (h.swapIfInBounds i c) c := by
  have hi : i < h.size := by omega
  constructor
  · intro j hj hlt hne hup
    rw [Array.size_swapIfInBounds] at hlt
    rw [entry_swap hi hc, entry_swap hi hc, if_neg hne, if_neg hup]
    by_cases hji : j = i
    · subst hji
      rw [if_pos rfl, if_neg (by omega)]
      exact ho.bridged hj c hc hpos hparent
    · rw [if_neg hji]
      by_cases hbelow : (j - 1) / 2 = i
      · rw [if_pos hbelow]
        exact hmax j hlt hj hbelow
      · rw [if_neg hbelow]
        exact ho.others j hj hlt hji hbelow
  · intro _ j hlt hj hup
    rw [Array.size_swapIfInBounds] at hlt
    have hj' := ho.others j hj hlt (by omega) (by omega)
    rw [hup] at hj'
    rw [entry_swap hi hc, entry_swap hi hc, hparent, if_pos rfl, if_neg (by omega),
      if_neg (by omega)]
    exact hj'

theorem OrderedAround.leaf (ho : h.OrderedAround i) (hleaf : h.size ≤ 2 * i + 1) :
    h.OrderedAbove i :=
  ⟨fun j hpos hj hne => ho.others j hpos hj hne (by omega), ho.bridged⟩

/-- On its way down an entry comes to a leaf, and only there it may be out of order. -/
theorem siftDown_spec (ho : h.OrderedAround i) (hi : i < h.size) :
    (siftDown h i).1.OrderedAbove (siftDown h i).2 ∧
      (siftDown h i).2 < (siftDown h i).1.size ∧
      (siftDown h i).1.toList.Perm h.toList := by
  induction h, i using siftDown.induct with
  | case1 h i htwo child ih =>
      have hchild : child < h.size ∧ 0 < child ∧ (child - 1) / 2 = i := by
        dsimp only [child]
        split <;> omega
      obtain ⟨hc, hpos, hparent⟩ := hchild
      have hmax : ∀ j, j < h.size → 0 < j → (j - 1) / 2 = i →
          (h.entry j).le (h.entry child) = true := by
        intro j _ hj hup
        have htwo : j = 2 * i + 1 ∨ j = 2 * i + 2 := by omega
        dsimp only [child]
        rcases htwo with rfl | rfl
        · split
          · next hle => exact hle
          · exact Ranked.le_refl _
        · split
          · exact Ranked.le_refl _
          · next hgt => exact Ranked.le_of_not_le hgt
      obtain ⟨hord, hlt, hperm⟩ := ih (ho.step hc hpos hparent hmax) (by simpa using hc)
      rw [siftDown, if_pos htwo]
      exact ⟨hord, hlt, hperm.trans (swap_perm hi hc)⟩
  | case2 h i htwo hone =>
      have hc : 2 * i + 1 < h.size := by omega
      have hord := ho.step hc (by omega) (by omega) fun j hj hpos hup => by
        rw [show j = 2 * i + 1 by omega]
        exact Ranked.le_refl _
      rw [siftDown, if_neg htwo, if_pos hone]
      refine ⟨hord.leaf (by simp; omega), by simpa using hc, swap_perm hi hc⟩
  | case3 h i htwo hone =>
      rw [siftDown, if_neg htwo, if_neg hone]
      exact ⟨ho.leaf (by omega), hi, List.Perm.refl _⟩

/-! ## One entry more or less -/

theorem entry_push (e : Ranked) (hi : i < h.size) : Heap.entry (h.push e) i = h.entry i := by
  simp [entry, Array.getElem?_push, Nat.ne_of_lt hi]

theorem entry_setIfInBounds_ne (e : Ranked) (hj : j ≠ i) :
    Heap.entry (h.setIfInBounds i e) j = h.entry j := by
  simp [entry, Array.getElem?_setIfInBounds_ne (Ne.symm hj)]

theorem insert_spec (hord : h.Ordered) (e : Ranked) :
    (h.insert e).Ordered ∧ (h.insert e).toList.Perm (e :: h.toList) := by
  have ho : OrderedAbove (h.push e) h.size := by
    constructor
    · intro j hpos hj hne
      rw [Array.size_push] at hj
      rw [entry_push e (by omega), entry_push e (by omega)]
      exact hord j hpos (by omega)
    · intro _ j hj _ hup
      rw [Array.size_push] at hj
      omega
  obtain ⟨hord', hperm⟩ := siftUp_spec ho (by simp)
  refine ⟨hord', hperm.trans ?_⟩
  rw [Array.toList_push]
  exact List.perm_append_singleton e h.toList

theorem dropRoot_spec (hord : h.Ordered) (hroot : h[0]? = some root) :
    h.dropRoot.Ordered ∧ (root :: h.dropRoot.toList).Perm h.toList := by
  have hsize : 0 < h.size := (Array.getElem?_eq_some_iff.mp hroot).1
  obtain ⟨rest, last, rfl⟩ := Array.eq_push_of_size_ne_zero (Nat.ne_of_gt hsize)
  rw [dropRoot, Array.back?_push, Array.pop_push]
  dsimp only
  by_cases hempty : rest.isEmpty = true
  · obtain rfl := Array.isEmpty_iff.mp hempty
    rw [if_pos hempty]
    cases hroot
    exact ⟨ordered_empty, List.Perm.refl _⟩
  · rw [if_neg hempty]
    have hpos : 0 < rest.size := by simpa [Array.size_pos_iff] using hempty
    obtain ⟨l, hl⟩ : ∃ l, rest.toList = root :: l := by
      rw [Array.getElem?_push_lt hpos, ← Array.getElem?_eq_getElem hpos,
        ← Array.getElem?_toList] at hroot
      cases hlist : rest.toList with
      | nil => simp [hlist] at hroot
      | cons a l => simp_all
    have ho : OrderedAround (rest.setIfInBounds 0 last) 0 := by
      refine ⟨fun j hj hlt _ hup => ?_, fun h => absurd h (Nat.lt_irrefl 0)⟩
      rw [Array.size_setIfInBounds] at hlt
      have hle := hord j hj (by simp; omega)
      rw [entry_push last hlt, entry_push last (by omega)] at hle
      rwa [entry_setIfInBounds_ne last (by omega), entry_setIfInBounds_ne last hup]
    obtain ⟨hup, hlt, hdown⟩ := siftDown_spec ho (by simpa using hpos)
    obtain ⟨hord', hperm⟩ := siftUp_spec hup hlt
    refine ⟨hord', ((hperm.trans hdown).cons root).trans ?_⟩
    rw [Array.toList_setIfInBounds, Array.toList_push, hl, List.set_cons_zero]
    exact (List.perm_append_singleton last l).symm.cons root

end Heap

end SetCover
