import Mathlib.Data.Finset.Card
import Mathlib.Data.Finset.SymmDiff
import SetCover.Bits.Counting
import SetCover.Proofs.Bits.Fill

/-!
# Bit vectors stand for sets

A history says how a vector was made, one operation after another. Next to the vector itself it
describes a width and a finite set, by what the operations mean for sets, and the vector stands for
that set: its bits, its count, its scan, its distance from other vectors and its equality with them
are all read off the set.

* `Bits.History`: how a vector is made. `vector` carries the operations out, `width` and `members`
  say what they mean.
* `Bits.StandsFor`: the bits of a vector are the members of a set, and unused bits are zero.
* `exists_standsFor`: the vector of a history stands for the set that the history describes.
* `reading_of_history`: all that is read off a vector is read off its set.
-/

namespace SetCover

namespace Bits

variable {size : Nat}

/-! ## Vectors for sets -/

/-- A vector has this width, and its bits are the members of this set of numbers below it. -/
structure StandsFor (b : Bits size) (width : Nat) (s : Finset Nat) : Prop where
  width_eq : b.width = width
  lt_width : ∀ i ∈ s, i < width
  stored_eq_false : ∀ i, width ≤ i → b.stored i = false
  get_eq : ∀ i, b.get i = decide (i ∈ s)

theorem standsFor_of {b : Bits size} {width : Nat} {s : Finset Nat} (hwidth : b.width = width)
    (hclean : b.Clean) (hmem : ∀ i, b.get i = true ↔ i ∈ s) : b.StandsFor width s := by
  subst hwidth
  refine ⟨rfl, fun i hi => ?_, fun i hi => ?_, fun i => ?_⟩
  · have hget := (hmem i).mpr hi
    exact of_decide_eq_true (Bool.and_eq_true_iff.mp hget).1
  · by_contra hone
    have hlt := hclean i (by simpa using hone)
    omega
  · rw [Bool.eq_iff_iff, hmem, decide_eq_true_eq]

namespace StandsFor

variable {b b' : Bits size} {w w' : Nat} {s s' : Finset Nat}

theorem clean (h : b.StandsFor w s) : b.Clean := by
  intro i hi
  rw [h.width_eq]
  by_contra hle
  rw [h.stored_eq_false i (by omega)] at hi
  cases hi

theorem stored_eq (h : b.StandsFor w s) (i : Nat) : b.stored i = decide (i ∈ s) := by
  rw [h.clean.stored_eq, h.get_eq]

theorem le_capacity (h : b.StandsFor w s) : w ≤ capacity size := h.width_eq ▸ b.width_le

theorem lt_capacity (h : b.StandsFor w s) {i : Nat} (hi : i ∈ s) : i < capacity size :=
  Nat.lt_of_lt_of_le (h.lt_width i hi) h.le_capacity

/-! ### What is read off -/

theorem mem_ones (h : b.StandsFor w s) {i : Nat} : i ∈ b.ones ↔ i ∈ s := by
  rw [mem_ones_iff, h.stored_eq, decide_eq_true_eq]

theorem toFinset_ones (h : b.StandsFor w s) : b.ones.toFinset = s := by
  ext i
  rw [List.mem_toFinset, h.mem_ones]

theorem count_eq_card (h : b.StandsFor w s) : b.count = s.card := by
  have hnodup : b.ones.Nodup := b.ones_ascending.imp fun hlt => Nat.ne_of_lt hlt
  rw [count_eq, ← List.toFinset_card_of_nodup hnodup, h.toFinset_ones]

theorem distance_eq_card (h : b.StandsFor w s) (h' : b'.StandsFor w' s') :
    b.distance b' = (symmDiff s s').card := by
  have hdiffer : symmDiff s s' =
      ((List.range (size * 64)).filter fun i => b.stored i != b'.stored i).toFinset := by
    ext i
    rw [Finset.mem_symmDiff, List.mem_toFinset, List.mem_filter, List.mem_range, h.stored_eq,
      h'.stored_eq]
    have hlt : i ∈ s ∨ i ∈ s' → i < size * 64 := fun hi => hi.elim h.lt_capacity h'.lt_capacity
    by_cases hs : i ∈ s <;> by_cases hs' : i ∈ s' <;> simp_all
  rw [distance_eq, hdiffer, List.countP_eq_length_filter,
    List.toFinset_card_of_nodup (List.nodup_range.filter _)]

theorem eq_iff (h : b.StandsFor w s) (h' : b'.StandsFor w' s') : b = b' ↔ w = w' ∧ s = s' := by
  constructor
  · rintro rfl
    refine ⟨h.width_eq.symm.trans h'.width_eq, ?_⟩
    rw [← h.toFinset_ones, h'.toFinset_ones]
  · rintro ⟨rfl, rfl⟩
    refine ext_stored (h.width_eq.trans h'.width_eq.symm) fun i => ?_
    rw [h.stored_eq, h'.stored_eq]

end StandsFor

/-! ## Histories -/

/-- How a vector is made. Every random operation has a session of its own to draw from. -/
inductive History (size : Nat) where
  | blank (width : Nat) (hwidth : width ≤ capacity size)
  | ofIds (ids : IdSet) (width : Nat) (hwidth : width ≤ capacity size)
  | random (width : Nat) (hwidth : width ≤ capacity size) (odds : Float)
      (hodds : (0.0 ≤ odds && odds ≤ 1.0) = true) (session : Session)
  | set (before : History size) (i : Nat)
  | clear (before : History size) (i : Nat)
  | flip (before : History size) (i : Nat)
  | assign (before : History size) (i : Nat) (value : Bool)
  | complement (before : History size)
  | truncate (before : History size)
  | fill (before : History size) (odds : Float) (hodds : (0.0 ≤ odds && odds ≤ 1.0) = true)
      (session : Session)
  | xor (left right : History size)

/-- The result of a search in a session of its own. -/
def resultIn {α : Type} (x : Search α) (session : Session) : Except Fault α :=
  match x.run session with
  | .ok a _ => .ok a
  | .error fault _ => .error fault

/-- The numbers below a width whose outcomes come up. -/
def chosen (odds : Float) (session : Session) (width : Nat) : Finset Nat :=
  {i ∈ Finset.range width | comesUp odds session.source i = true}

/-- A set after the membership of one number below the width is decided. -/
def decided (width : Nat) (s : Finset Nat) (i : Nat) (value : Bool) : Finset Nat :=
  if i < width then if value then insert i s else s.erase i else s

namespace History

/-- The vector that the operations lead to. -/
def vector : History size → Except Fault (Bits size)
  | blank width _ => blank? size width
  | ofIds ids width _ => ofIds? size ids width
  | random width _ odds _ session => resultIn (Bits.random size width odds) session
  | set before i => return (← before.vector).set i
  | clear before i => return (← before.vector).clear i
  | flip before i => return (← before.vector).flip i
  | assign before i value => return (← before.vector).assign i value
  | complement before => return (← before.vector).complement
  | truncate before => return (← before.vector).truncate
  | fill before odds _ session => do resultIn ((← before.vector).fill odds) session
  | xor left right => return (← left.vector).xor (← right.vector)

/-- The width that the operations describe. -/
def width : History size → Nat
  | blank width _ | ofIds _ width _ | random width _ _ _ _ => width
  | set before _ | clear before _ | flip before _ | assign before _ _ => before.width
  | complement before | truncate before | fill before _ _ _ => before.width
  | xor left right => min left.width right.width

/-- The set that the operations describe. -/
def members : History size → Finset Nat
  | blank _ _ => ∅
  | ofIds ids width _ => {i ∈ ids.toList.toFinset | i < width}
  | random width _ odds _ session => chosen odds session width
  | set before i => decided before.width before.members i true
  | clear before i => decided before.width before.members i false
  | flip before i => decided before.width before.members i (i ∉ before.members)
  | assign before i value => decided before.width before.members i value
  | complement before => Finset.range before.width \ before.members
  | truncate before => before.members
  | fill before odds _ session => chosen odds session before.width
  | xor left right =>
      {i ∈ symmDiff left.members right.members | i < min left.width right.width}

end History

/-! ## One operation -/

theorem exists_resultIn {α : Type} {x : Search α} {Q : α → Session → Prop} {session : Session}
    (h : Search.Ends x Search.noFault Q session) :
    ∃ a σ, resultIn x session = .ok a ∧ Q a σ := by
  obtain ⟨a, σ, hrun, hQ⟩ := h.exists_run
  refine ⟨a, σ, ?_, hQ⟩
  rw [resultIn, hrun]

theorem mem_chosen {odds : Float} {session : Session} {width i : Nat} :
    i ∈ chosen odds session width ↔ i < width ∧ comesUp odds session.source i = true := by
  rw [chosen, Finset.mem_filter, Finset.mem_range]

theorem mem_decided {width i j : Nat} {s : Finset Nat} {value : Bool} :
    j ∈ decided width s i value ↔ if i = j ∧ i < width then value = true else j ∈ s := by
  unfold decided
  by_cases hi : i < width
  · by_cases hij : i = j
    · subst hij
      cases value <;> simp [hi]
    · have hji : j ≠ i := fun e => hij e.symm
      cases value <;> simp [hi, hij, hji]
  · simp [hi]

theorem standsFor_blank {width : Nat} (hwidth : width ≤ capacity size) :
    ∃ b, blank? size width = .ok b ∧ b.StandsFor width ∅ := by
  obtain ⟨b, hb⟩ := exists_blank? hwidth
  obtain ⟨-, hbwidth, hzero⟩ := blank?_eq_ok hb
  refine ⟨b, hb, standsFor_of hbwidth (fun i hi => ?_) fun i => ?_⟩
  · rw [hzero] at hi
    cases hi
  · simp [get, hzero]

theorem standsFor_ofIds (ids : IdSet) {width : Nat} (hwidth : width ≤ capacity size) :
    ∃ b, ofIds? size ids width = .ok b ∧
      b.StandsFor width {i ∈ ids.toList.toFinset | i < width} := by
  obtain ⟨b, hofIds⟩ := exists_ofIds? ids hwidth
  obtain ⟨hbwidth, hclean, hget⟩ := get_of_ofIds? hofIds
  refine ⟨b, hofIds, standsFor_of hbwidth hclean fun i => ?_⟩
  simp [hget, ids.contains_eq_decide, IdSet.mem_def]

theorem standsFor_chosen {b : Bits size} {width : Nat} {odds : Float} {session : Session}
    (hwidth : b.width = width) (hclean : b.Clean)
    (hget : ∀ i, b.get i = (decide (i < width) && comesUp odds session.source i)) :
    b.StandsFor width (chosen odds session width) := by
  refine standsFor_of hwidth hclean fun i => ?_
  rw [hget, mem_chosen, Bool.and_eq_true, decide_eq_true_eq]

theorem standsFor_random {width : Nat} (hwidth : width ≤ capacity size) {odds : Float}
    (hodds : (0.0 ≤ odds && odds ≤ 1.0) = true) (session : Session) :
    ∃ b, resultIn (random size width odds) session = .ok b ∧
      b.StandsFor width (chosen odds session width) := by
  obtain ⟨b, -, hb, hbwidth, hclean, hget⟩ := exists_resultIn (ends_random hwidth hodds)
  exact ⟨b, hb, standsFor_chosen hbwidth hclean hget⟩

namespace StandsFor

variable {b b' : Bits size} {w w' : Nat} {s s' : Finset Nat}

/-- Deciding one membership, for vectors and for sets. -/
theorem decided_at (h : b.StandsFor w s) {i : Nat} {value : Bool} (hwidth : b'.width = b.width)
    (hclean : b'.Clean)
    (hget : ∀ j, b'.get j = if i = j ∧ i < b.width then value else b.get j) :
    b'.StandsFor w (decided w s i value) := by
  refine standsFor_of (hwidth.trans h.width_eq) hclean fun j => ?_
  rw [hget, h.width_eq, h.get_eq, mem_decided]
  split
  · rfl
  · exact decide_eq_true_iff

theorem set (h : b.StandsFor w s) (i : Nat) : (b.set i).StandsFor w (decided w s i true) :=
  h.decided_at (width_set b i) (h.clean.set i) (get_set b i)

theorem assign (h : b.StandsFor w s) (i : Nat) (value : Bool) :
    (b.assign i value).StandsFor w (decided w s i value) :=
  h.decided_at (width_assign b i value) (h.clean.assign i value) fun j => get_assign b i j value

theorem clear (h : b.StandsFor w s) (i : Nat) : (b.clear i).StandsFor w (decided w s i false) :=
  h.assign i false

theorem flip (h : b.StandsFor w s) (i : Nat) :
    (b.flip i).StandsFor w (decided w s i (i ∉ s)) := by
  refine h.decided_at (width_flip b i) (h.clean.flip i) fun j => ?_
  rw [get_flip]
  split
  · next hij => rw [← hij.1, h.get_eq, decide_not]
  · rfl

theorem complement (h : b.StandsFor w s) : b.complement.StandsFor w (Finset.range w \ s) := by
  refine standsFor_of ((width_complement b).trans h.width_eq) (clean_complement b) fun i => ?_
  rw [get_complement, h.width_eq, h.get_eq, Finset.mem_sdiff, Finset.mem_range]
  simp

theorem truncate (h : b.StandsFor w s) : b.truncate.StandsFor w s := by
  refine standsFor_of ((width_truncate b).trans h.width_eq) (clean_truncate b) fun i => ?_
  rw [get_truncate, h.get_eq, decide_eq_true_eq]

theorem fill (h : b.StandsFor w s) {odds : Float} (hodds : (0.0 ≤ odds && odds ≤ 1.0) = true)
    (session : Session) :
    ∃ b', resultIn (b.fill odds) session = .ok b' ∧ b'.StandsFor w (chosen odds session w) := by
  obtain ⟨b', -, hb', hwidth, hclean, hget⟩ := exists_resultIn (ends_fill b hodds)
  rw [h.width_eq] at hwidth hget
  exact ⟨b', hb', standsFor_chosen hwidth hclean hget⟩

theorem xor (h : b.StandsFor w s) (h' : b'.StandsFor w' s') :
    (b.xor b').StandsFor (min w w') {i ∈ symmDiff s s' | i < min w w'} := by
  refine standsFor_of (by rw [width_xor, h.width_eq, h'.width_eq]) (clean_xor b b') fun i => ?_
  rw [get_xor, h.width_eq, h'.width_eq, h.get_eq, h'.get_eq, Finset.mem_filter,
    Finset.mem_symmDiff, Bool.and_eq_true, decide_eq_true_eq]
  by_cases hs : i ∈ s <;> by_cases hs' : i ∈ s' <;> simp [hs, hs']

end StandsFor

/-! ## Every history -/

/-- No history fails, and its vector stands for the set that it describes. -/
theorem exists_standsFor (h : History size) :
    ∃ b, h.vector = .ok b ∧ b.StandsFor h.width h.members := by
  induction h with
  | blank width hwidth => exact standsFor_blank hwidth
  | ofIds ids width hwidth => exact standsFor_ofIds ids hwidth
  | random width hwidth odds hodds session => exact standsFor_random hwidth hodds session
  | set before i ih =>
      obtain ⟨b, hb, h⟩ := ih
      exact ⟨b.set i, by rw [History.vector, hb]; rfl, h.set i⟩
  | clear before i ih =>
      obtain ⟨b, hb, h⟩ := ih
      exact ⟨b.clear i, by rw [History.vector, hb]; rfl, h.clear i⟩
  | flip before i ih =>
      obtain ⟨b, hb, h⟩ := ih
      exact ⟨b.flip i, by rw [History.vector, hb]; rfl, h.flip i⟩
  | assign before i value ih =>
      obtain ⟨b, hb, h⟩ := ih
      exact ⟨b.assign i value, by rw [History.vector, hb]; rfl, h.assign i value⟩
  | complement before ih =>
      obtain ⟨b, hb, h⟩ := ih
      exact ⟨b.complement, by rw [History.vector, hb]; rfl, h.complement⟩
  | truncate before ih =>
      obtain ⟨b, hb, h⟩ := ih
      exact ⟨b.truncate, by rw [History.vector, hb]; rfl, h.truncate⟩
  | fill before odds hodds session ih =>
      obtain ⟨b, hb, h⟩ := ih
      obtain ⟨b', hb', h'⟩ := h.fill hodds session
      exact ⟨b', by rw [History.vector, hb]; exact hb', h'⟩
  | xor left right ihl ihr =>
      obtain ⟨b, hb, h⟩ := ihl
      obtain ⟨b', hb', h'⟩ := ihr
      exact ⟨b.xor b', by rw [History.vector, hb, hb']; rfl, h.xor h'⟩

/-- All that is read off the vector of a history is read off the set that the history describes:
bits, unused ones included, the count, the scan, the distance from the vector of any other history,
and whether the two are the same. -/
theorem reading_of_history (h : History size) :
    ∃ b, h.vector = .ok b ∧ b.width = h.width ∧ h.width ≤ capacity size ∧
      h.members ⊆ Finset.range h.width ∧ (∀ i, h.width ≤ i → b.stored i = false) ∧
      (∀ i, b.get i = decide (i ∈ h.members)) ∧ b.count = h.members.card ∧
      b.ones.Pairwise (· < ·) ∧ b.ones.toFinset = h.members ∧ b.toIds.toList = b.ones ∧
      ∀ h' : History size, ∃ b', h'.vector = .ok b' ∧
        b.distance b' = (symmDiff h.members h'.members).card ∧
        (b = b' ↔ h.width = h'.width ∧ h.members = h'.members) := by
  obtain ⟨b, hb, hs⟩ := exists_standsFor h
  refine ⟨b, hb, hs.width_eq, hs.le_capacity, fun i hi => ?_, hs.stored_eq_false, hs.get_eq,
    hs.count_eq_card, b.ones_ascending, hs.toFinset_ones, rfl, fun h' => ?_⟩
  · exact Finset.mem_range.mpr (hs.lt_width i hi)
  · obtain ⟨b', hb', hs'⟩ := exists_standsFor h'
    exact ⟨b', hb', hs.distance_eq_card hs', hs.eq_iff hs'⟩

/-- Two words are drawn for a vector of 65 bits, and the vector is compared with a narrow one. -/
def drawnBeforeCut : History 2 :=
  .xor (.fill (.set (.blank 65 (by decide)) 7) 0.5 (by decide) ⟨.ofStream (.ofList [5, 3]), []⟩)
    (.complement (.set (.blank 3 (by decide)) 0))

theorem reading_of_drawnBeforeCut :
    ∃ b, drawnBeforeCut.vector = .ok b ∧ b.width = 3 ∧ b.stored 64 = false ∧ b.get 1 = true ∧
      b.count = 2 ∧ b.ones.toFinset = {0, 1} := by
  have hwidth : drawnBeforeCut.width = 3 := by decide
  have hmembers : drawnBeforeCut.members = {0, 1} := by decide +kernel
  obtain ⟨b, hb, hbwidth, -, -, hunused, hget, hcount, -, hones, -⟩ :=
    reading_of_history drawnBeforeCut
  rw [hwidth] at hbwidth hunused
  rw [hmembers] at hget hcount hones
  exact ⟨b, hb, hbwidth, hunused 64 (by decide), hget 1, hcount, hones⟩

end Bits

end SetCover
