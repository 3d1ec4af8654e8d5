import SetCover.Greedy
import SetCover.Proofs.Instance.Cover
import SetCover.Proofs.Search.Outcome

/-!
# Growing a cover

A construction works on two data: the elements that are left, and the ids that are kept. They are
bound by `Grows`: an element that is not left is held by a kept id. With shortlists of one offer
the words drawn do not matter, and the construction is a plain scan of the offers.

* `ends_grow_noted`, `ends_grow_draw`, `ends_grow_cons`: one step of a construction.
* `ends_grow`: what a construction gives, and when it fails.
* `ends_grow_one`: with shortlists of one offer it is `scan`.
* `scan_spec`: a scan succeeds where every element that is left is held by an offer.
-/

namespace SetCover.Greedy

open Search

variable {inst : Instance} {pool : List Offer} {left : List Nat} {kept : IdSet} {size : Nat}
  {E : Fault → Session → Prop} {Q : IdSet → Session → Prop} {σ : Session}

/-! ## One step -/

/-- What is left after a subset is taken. -/
def leftAfter (inst : Instance) (left : List Nat) (id : Nat) : List Nat :=
  left.filter fun e => !(inst.contentsOf id).contains e

/-- What is kept after a subset is taken, which is kept if it holds an element that is left. -/
def keptAfter (inst : Instance) (left : List Nat) (kept : IdSet) (id : Nat) : IdSet :=
  if ∃ e ∈ left, id ∈ inst.holdersOf e then kept.insert id else kept

/-- What is written down when a subset is taken. -/
def entryAfter (inst : Instance) (left : List Nat) (id : Nat) : Event :=
  if ∃ e ∈ left, id ∈ inst.holdersOf e then
    .subsetPicked id (left.length - (leftAfter inst left id).length) (leftAfter inst left id).length
  else .subsetPassedOver id

theorem mem_leftAfter {id e : Nat} :
    e ∈ leftAfter inst left id ↔ e ∈ left ∧ id ∉ inst.holdersOf e := by
  rw [leftAfter, List.mem_filter, Bool.not_eq_true', ← Bool.not_eq_true, IdSet.contains_iff,
    Instance.mem_contentsOf]

theorem mem_keptAfter {id a : Nat} :
    a ∈ keptAfter inst left kept id ↔
      a ∈ kept ∨ a = id ∧ ∃ e ∈ left, id ∈ inst.holdersOf e := by
  unfold keptAfter
  split
  · next hnew =>
      rw [IdSet.mem_insert]
      constructor
      · intro h
        rcases h with rfl | h
        · exact Or.inr ⟨rfl, hnew⟩
        · exact Or.inl h
      · intro h
        rcases h with h | ⟨rfl, _⟩
        · exact Or.inr h
        · exact Or.inl rfl
  · next hnone => simp [hnone]

theorem length_leftAfter_lt {id : Nat} :
    (leftAfter inst left id).length < left.length ↔ ∃ e ∈ left, id ∈ inst.holdersOf e := by
  rw [leftAfter, List.length_filter_lt_length_iff_exists]
  simp [Instance.mem_contentsOf]

theorem gained_ne_zero_iff {first : Nat} {more : List Nat} {id : Nat} :
    more.length + 1 - (leftAfter inst (first :: more) id).length ≠ 0 ↔
      ∃ e ∈ first :: more, id ∈ inst.holdersOf e := by
  rw [← length_leftAfter_lt, List.length_cons]
  omega

theorem shortlist_eq_nil (hsize : 0 < size) (h : shortlist size pool = []) : pool = [] := by
  unfold shortlist at h
  split at h
  · next hlt =>
      rcases List.take_eq_nil_iff.mp h with hzero | hnil
      · omega
      · exact hnil
  · have hlength : (pool.mergeSort fun a b => a.id ≤ b.id).length = pool.length :=
      List.length_mergeSort pool
    rw [h] at hlength
    exact List.length_eq_zero_iff.mp hlength.symm

/-- One step: it fails on an empty pool, and otherwise one draw takes an offer of the shortlist and
writes it down. -/
theorem ends_grow_noted {first : Nat} {more : List Nat} (hsize : 0 < size)
    (hdry : pool = [] → E (.uncoverable first) σ)
    (hpick : ∀ hpos : 0 < (shortlist size pool).length, ∀ o ∈ shortlist size pool,
      Ends (grow inst size (pool.erase o) (leftAfter inst (first :: more) o.id)
        (keptAfter inst (first :: more) kept o.id)) E Q
        ⟨(σ.source.below _ hpos).2, entryAfter inst (first :: more) o.id :: σ.journal⟩) :
    Ends (grow inst size pool (first :: more) kept) E Q σ := by
  rw [grow]
  by_cases hempty : (shortlist size pool).isEmpty = true
  · rw [if_pos hempty]
    exact ends_throw (hdry (shortlist_eq_nil hsize (List.isEmpty_iff.mp hempty)))
  · rw [if_neg hempty]
    have hpos : 0 < (shortlist size pool).length :=
      List.length_pos_iff.mpr fun hnil => hempty (List.isEmpty_iff.mpr hnil)
    refine ends_below_run_bind hpos (ends_note_bind ?_)
    generalize (σ.source.below (shortlist size pool).length hpos).1 = i
    have hpick := hpick hpos (shortlist size pool)[i] (List.getElem_mem i.isLt)
    unfold keptAfter entryAfter at hpick
    simp only [← gained_ne_zero_iff] at hpick
    exact hpick

/-- One step, whatever is written down. -/
theorem ends_grow_draw {first : Nat} {more : List Nat} (hsize : 0 < size)
    (hdry : pool = [] → E (.uncoverable first) σ)
    (hpick : ∀ hpos : 0 < (shortlist size pool).length, ∀ o ∈ shortlist size pool, ∀ journal,
      Ends (grow inst size (pool.erase o) (leftAfter inst (first :: more) o.id)
        (keptAfter inst (first :: more) kept o.id)) E Q ⟨(σ.source.below _ hpos).2, journal⟩) :
    Ends (grow inst size pool (first :: more) kept) E Q σ :=
  ends_grow_noted hsize hdry fun hpos o ho => hpick hpos o ho _

/-- One step, whatever word is drawn. -/
theorem ends_grow_cons {first : Nat} {more : List Nat} (hsize : 0 < size)
    (hdry : pool = [] → E (.uncoverable first) σ)
    (hpick : ∀ o ∈ shortlist size pool, ∀ σ, Ends (grow inst size (pool.erase o)
      (leftAfter inst (first :: more) o.id) (keptAfter inst (first :: more) kept o.id)) E Q σ) :
    Ends (grow inst size pool (first :: more) kept) E Q σ :=
  ends_grow_draw hsize hdry fun _ o ho _ => hpick o ho _

/-! ## The invariant -/

/-- The ids kept are known, and hold all elements that are not left. -/
structure Grows (inst : Instance) (left : List Nat) (kept : IdSet) : Prop where
  ids_lt : ∀ id ∈ kept, id < inst.subsetCount
  holds : ∀ e < inst.elementCount, e ∉ left → inst.Holds (· ∈ kept) e

theorem grows_start : Grows inst (List.range inst.elementCount) .empty :=
  ⟨fun _ h => absurd h IdSet.not_mem_empty, fun _ he h => absurd (List.mem_range.mpr he) h⟩

theorem Grows.pick (h : Grows inst left kept) (id : Nat) :
    Grows inst (leftAfter inst left id) (keptAfter inst left kept id) := by
  constructor
  · intro a ha
    rcases mem_keptAfter.mp ha with ha | ⟨rfl, e, _, he⟩
    · exact h.ids_lt a ha
    · exact Instance.mem_holdersOf_lt he
  · intro e he hleft
    by_cases hin : e ∈ left
    · have hid : id ∈ inst.holdersOf e := by
        by_contra hnot
        exact hleft (mem_leftAfter.mpr ⟨hin, hnot⟩)
      exact ⟨id, hid, mem_keptAfter.mpr (Or.inr ⟨rfl, e, hin, hid⟩)⟩
    · obtain ⟨s, hs, hkept⟩ := h.holds e he hin
      exact ⟨s, hs, mem_keptAfter.mpr (Or.inl hkept)⟩

theorem Grows.covers (h : Grows inst [] kept) : inst.covers kept = true :=
  Instance.covers_iff.mpr fun e he => h.holds e he List.not_mem_nil

/-- A construction gives a cover of known ids. It fails only with an element that is left and that
nothing on offer holds. -/
theorem ends_grow (hsize : 0 < size) (h : Grows inst left kept) :
    Ends (grow inst size pool left kept)
      (fun fault _ => ∃ e ∈ left, fault = .uncoverable e ∧ ∀ o ∈ pool, o.id ∉ inst.holdersOf e)
      (fun ids _ => (∀ id ∈ ids, id < inst.subsetCount) ∧ inst.covers ids = true) σ := by
  -- every step takes an offer out of the pool
  induction hn : pool.length using Nat.strongRecOn generalizing pool left kept σ with
  | ind n ih =>
      subst hn
      cases left with
      | nil =>
          rw [grow]
          exact ends_pure ⟨h.ids_lt, h.covers⟩
      | cons first more =>
          refine ends_grow_cons hsize ?_ fun o ho σ => ?_
          · rintro rfl
            exact ⟨first, by simp, rfl, by simp⟩
          · have hmem := mem_of_mem_shortlist ho
            have hshorter : (pool.erase o).length < pool.length := by
              rw [List.length_erase_of_mem hmem]
              exact Nat.sub_one_lt_of_lt (List.length_pos_of_mem hmem)
            refine (ih _ hshorter (h.pick o.id) rfl).mono ?_ fun _ _ hids => hids
            rintro fault _ ⟨e, he, rfl, hbare⟩
            obtain ⟨hin, ho⟩ := mem_leftAfter.mp he
            refine ⟨e, hin, rfl, fun a ha => ?_⟩
            by_cases hao : a = o
            · exact hao ▸ ho
            · exact hbare a ((List.mem_erase_of_ne hao).mpr ha)

/-! ## Shortlists of one offer -/

/-- Takes all offers in order until no element is left. -/
def scan (inst : Instance) : List Offer → List Nat → IdSet → Option IdSet
  | _, [], kept => some kept
  | [], _ :: _, _ => none
  | o :: pool, first :: more, kept =>
      scan inst pool (leftAfter inst (first :: more) o.id)
        (keptAfter inst (first :: more) kept o.id)

theorem scan_spec (h : Grows inst left kept)
    (hoffered : ∀ e ∈ left, ∃ o ∈ pool, o.id ∈ inst.holdersOf e) :
    ∃ ids, scan inst pool left kept = some ids ∧ (∀ id ∈ ids, id < inst.subsetCount) ∧
      inst.covers ids = true := by
  induction pool generalizing left kept with
  | nil =>
      cases left with
      | nil => exact ⟨kept, rfl, h.ids_lt, h.covers⟩
      | cons first more =>
          obtain ⟨o, ho, _⟩ := hoffered first (by simp)
          exact absurd ho List.not_mem_nil
  | cons o pool ih =>
      cases left with
      | nil => exact ⟨kept, rfl, h.ids_lt, h.covers⟩
      | cons first more =>
          refine ih (h.pick o.id) fun e he => ?_
          obtain ⟨hin, hbare⟩ := mem_leftAfter.mp he
          obtain ⟨a, ha, hholds⟩ := hoffered e hin
          rcases List.mem_cons.mp ha with rfl | ha
          · exact absurd hholds hbare
          · exact ⟨a, ha, hholds⟩

theorem length_shortlist_le : (shortlist size pool).length ≤ pool.length := by
  unfold shortlist
  split
  · exact List.length_take_le' size pool
  · exact Nat.le_of_eq (List.length_mergeSort pool)

/-- Where the shortlist is long enough, every offer is on it. -/
theorem mem_shortlist_of_length_le {o : Offer} (hsize : pool.length ≤ size) (ho : o ∈ pool) :
    o ∈ shortlist size pool := by
  rwa [shortlist, if_neg (Nat.not_lt.mpr hsize), List.mem_mergeSort]

theorem shortlist_one : shortlist 1 pool = pool.take 1 := by
  unfold shortlist
  split
  · rfl
  · next hlong =>
      match pool, hlong with
      | [], _ => simp
      | [o], _ => simp
      | _ :: _ :: _, hlong => simp at hlong

/-- With shortlists of one offer a construction is a scan, whatever words are drawn. -/
theorem ends_grow_one :
    Ends (grow inst 1 pool left kept) (fun _ _ => scan inst pool left kept = none)
      (fun ids _ => scan inst pool left kept = some ids) σ := by
  induction pool generalizing left kept σ with
  | nil =>
      cases left with
      | nil =>
          rw [grow]
          exact ends_pure rfl
      | cons first more =>
          refine ends_grow_cons Nat.one_pos (fun _ => rfl) fun o ho => ?_
          exact absurd (mem_of_mem_shortlist ho) List.not_mem_nil
  | cons o pool ih =>
      cases left with
      | nil =>
          rw [grow]
          exact ends_pure rfl
      | cons first more =>
          refine ends_grow_cons Nat.one_pos (fun h => by cases h) fun a ha σ => ?_
          rw [shortlist_one] at ha
          have ha : a = o := by simpa using ha
          subst ha
          rw [List.erase_cons_head]
          exact ih

end SetCover.Greedy
