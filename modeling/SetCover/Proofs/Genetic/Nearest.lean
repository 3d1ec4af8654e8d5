import Mathlib.Data.List.Induction
import SetCover.Genetic.Pool
import SetCover.Proofs.Genetic.Heap
import SetCover.Proofs.Results

/-!
# The nearest members

The mates of a leader are found in one pass over the pool, with a heap that never has more entries
than mates are wanted. The same mates come first when the whole pool is sorted by distance and,
where distances are equal, by index.

The heap is never asked whether an entry is not nearer than its farthest one but has a smaller
index, because the indices of the pass go up. So an entry that is not strictly nearer comes later in
the order, and leaving it out leaves out no mate.

* `FirstOf`: some entries of a list that come before the others.
* `offerMate_spec`: what becomes of them when the heap is offered an entry more.
* `foldl_offerMate`: what the heap holds after the pass.
* `Pool.exists_mates`: every mate is a member of the pool.
* `Pool.mateIndices_nearest`: the mates are those that come first in the sorted pool.
-/

namespace SetCover

/-! ## The first entries of a list -/

/-- As many entries of `l` as `count` allows, none of which comes after one that is left out. -/
def FirstOf (count : Nat) (l chosen : List Ranked) : Prop :=
  ∃ rest, (chosen ++ rest).Perm l ∧ chosen.length = min count l.length ∧
    ∀ a ∈ chosen, ∀ b ∈ rest, a.le b = true

namespace FirstOf

variable {count : Nat} {l chosen chosen' : List Ranked} {e farthest : Ranked}

theorem of_perm (h : FirstOf count l chosen) (hperm : chosen'.Perm chosen) :
    FirstOf count l chosen' := by
  obtain ⟨rest, hl, hlength, hle⟩ := h
  exact ⟨rest, (hperm.append_right rest).trans hl, hperm.length_eq.trans hlength,
    fun a ha => hle a (hperm.mem_iff.mp ha)⟩

theorem mem (h : FirstOf count l chosen) {a : Ranked} (ha : a ∈ chosen) : a ∈ l := by
  obtain ⟨rest, hl, _⟩ := h
  exact hl.mem_iff.mp (List.mem_append_left rest ha)

/-- As long as there is room, all entries are chosen. -/
theorem add (h : FirstOf count l chosen) (hroom : l.length < count) (e : Ranked) :
    FirstOf count (l ++ [e]) (e :: chosen) := by
  obtain ⟨rest, hl, hlength, _⟩ := h
  have hnil : rest = [] := by
    have := hl.length_eq
    rw [List.length_append] at this
    exact List.eq_nil_of_length_eq_zero (by omega)
  subst hnil
  refine ⟨[], ?_, by simp; omega, by simp⟩
  exact (hl.cons e).trans (List.perm_append_singleton e l).symm

/-- An entry that comes after the chosen ones is left out. -/
theorem pass (h : FirstOf count l chosen) (hfull : count ≤ l.length)
    (hle : ∀ a ∈ chosen, a.le e = true) : FirstOf count (l ++ [e]) chosen := by
  obtain ⟨rest, hl, hlength, hrest⟩ := h
  refine ⟨e :: rest, ?_, by simp; omega, fun a ha => ?_⟩
  · have hperm := List.perm_middle.trans (hl.cons e)
    exact hperm.trans (List.perm_append_singleton e l).symm
  · exact List.forall_mem_cons.mpr ⟨hle a ha, hrest a ha⟩

/-- An entry that comes before the last of the chosen ones takes its place. -/
theorem evict (h : FirstOf count l (farthest :: chosen)) (hfull : count ≤ l.length)
    (hlast : ∀ a ∈ chosen, a.le farthest = true) (he : e.le farthest = true) :
    FirstOf count (l ++ [e]) (e :: chosen) := by
  obtain ⟨rest, hl, hlength, hrest⟩ := h
  obtain ⟨hfarthest, hrest⟩ := List.forall_mem_cons.mp hrest
  refine ⟨farthest :: rest, ?_, by simp at hlength ⊢; omega, ?_⟩
  · have hperm := (List.perm_middle.trans hl).cons e
    exact hperm.trans (List.perm_append_singleton e l).symm
  · refine List.forall_mem_cons.mpr ⟨?_, fun a ha => ?_⟩
    · exact List.forall_mem_cons.mpr ⟨he, fun b hb => Ranked.le_trans he (hfarthest b hb)⟩
    · exact List.forall_mem_cons.mpr ⟨hlast a ha, hrest a ha⟩

/-- The chosen entries are those that come first when the list is sorted. -/
theorem perm_take (h : FirstOf count l chosen) :
    chosen.Perm ((l.mergeSort Ranked.le).take count) := by
  obtain ⟨rest, hl, hlength, hrest⟩ := h
  have hsorted : ∀ k : List Ranked, (k.mergeSort Ranked.le).Pairwise fun a b => a.le b = true :=
    List.pairwise_mergeSort (fun _ _ _ => Ranked.le_trans) Ranked.le_total
  have happend : (chosen.mergeSort Ranked.le ++ rest.mergeSort Ranked.le).Pairwise
      fun a b => a.le b = true := by
    refine List.pairwise_append.mpr ⟨hsorted chosen, hsorted rest, fun a ha b hb => ?_⟩
    exact hrest a (List.mem_mergeSort.mp ha) b (List.mem_mergeSort.mp hb)
  have hperm : (l.mergeSort Ranked.le).Perm
      (chosen.mergeSort Ranked.le ++ rest.mergeSort Ranked.le) :=
    (List.mergeSort_perm l _).trans (hl.symm.trans
      ((List.mergeSort_perm chosen _).append (List.mergeSort_perm rest _)).symm)
  have heq : l.mergeSort Ranked.le = chosen.mergeSort Ranked.le ++ rest.mergeSort Ranked.le :=
    hperm.eq_of_pairwise (fun _ _ _ _ => Ranked.eq_of_le_of_le) (hsorted l) happend
  have htake : (l.mergeSort Ranked.le).take count = chosen.mergeSort Ranked.le := by
    have hlength' := hl.length_eq
    rw [List.length_append] at hlength'
    rcases Nat.le_total count l.length with hle | hge
    · rw [heq, List.take_left' (by simp; omega)]
    · have hnil : rest = [] := List.eq_nil_of_length_eq_zero (by omega)
      rw [heq, hnil, List.mergeSort_nil, List.append_nil, List.take_of_length_le (by simp; omega)]
  rw [htake]
  exact (List.mergeSort_perm chosen _).symm

end FirstOf

/-! ## One pass over a list -/

/-- The heap holds the first entries before an entry is offered, and after it, if the indices go
up. -/
theorem offerMate_spec {count : Nat} {h : Heap} {l : List Ranked} {e : Ranked} (hord : h.Ordered)
    (hfirst : FirstOf count l h.toList) (hlater : ∀ a ∈ l, a.index < e.index) :
    (offerMate count h e).Ordered ∧ FirstOf count (l ++ [e]) (offerMate count h e).toList := by
  have hsize : h.size = min count l.length := by
    obtain ⟨_, _, hlength, _⟩ := hfirst
    rw [← hlength, Array.length_toList]
  unfold offerMate
  split
  · next hroom =>
      obtain ⟨hord', hperm⟩ := Heap.insert_spec hord e
      exact ⟨hord', (hfirst.add (by omega) e).of_perm hperm⟩
  · next hfull =>
      have hfull : count ≤ l.length := by omega
      cases hroot : h[0]? with
      | none =>
          have hnil : h.toList = [] := by simpa using hroot
          refine ⟨hord, hfirst.pass hfull ?_⟩
          rw [hnil]
          exact fun _ ha => absurd ha List.not_mem_nil
      | some farthest =>
          have hlast : ∀ a ∈ h.toList, a.le farthest = true := fun a ha =>
            hord.le_root hroot (Array.mem_toList_iff.mp ha)
          dsimp only
          split
          · next hnearer =>
              obtain ⟨hord', hperm⟩ := Heap.dropRoot_spec hord hroot
              obtain ⟨hord'', hperm'⟩ := Heap.insert_spec hord' e
              refine ⟨hord'', ((hfirst.of_perm hperm).evict hfull ?_ ?_).of_perm hperm'⟩
              · intro a ha
                exact hlast a (hperm.mem_iff.mp (List.mem_cons_of_mem _ ha))
              · exact Ranked.le_iff.mpr (Or.inl hnearer)
          · next hfarther =>
              -- no nearer than the farthest, and its index is larger
              have hindex := hlater farthest
                (hfirst.mem (Array.mem_toList_iff.mpr (Array.mem_of_getElem? hroot)))
              have hle : farthest.le e = true := Ranked.le_iff.mpr (by omega)
              exact ⟨hord, hfirst.pass hfull fun a ha => Ranked.le_trans (hlast a ha) hle⟩

theorem foldl_offerMate (count : Nat) {l : List Ranked}
    (hl : l.Pairwise fun a b => a.index < b.index) :
    (l.foldl (offerMate count) #[]).Ordered ∧
      FirstOf count l (l.foldl (offerMate count) #[]).toList := by
  induction l using List.reverseRecOn with
  | nil => exact ⟨Heap.ordered_empty, [], List.Perm.refl _, by simp⟩
  | append_singleton l e ih =>
      obtain ⟨hl, _, hlater⟩ := List.pairwise_append.mp hl
      obtain ⟨hord, hfirst⟩ := ih hl
      rw [List.foldl_append]
      exact offerMate_spec hord hfirst fun a ha => hlater a ha e (List.mem_singleton_self e)

/-! ## Pools -/

namespace Pool

variable {pool : Pool} {leader : Member}

/-- The distance of the member at a place to a candidate; zero for a place that the pool does not
have. -/
def distanceAt (pool : Pool) (candidate : Member) (i : Nat) : Nat :=
  (pool.members[i]?.map (·.distance candidate)).getD 0

theorem getElem?_members (pool : Pool) (i : Fin pool.size) :
    pool.members[i.val]? = some (pool.member i) :=
  Array.getElem?_eq_getElem i.isLt

theorem distanceAt_val (pool : Pool) (candidate : Member) (i : Fin pool.size) :
    pool.distanceAt candidate i.val = (pool.member i).distance candidate := by
  rw [distanceAt, getElem?_members]
  rfl

/-- The indices of a pool, those of nearer members first, and smaller ones first where distances
are equal. -/
def nearestFirst (pool : Pool) (leader : Member) : List Nat :=
  (List.range pool.size).mergeSort fun i j =>
    pool.distanceAt leader i < pool.distanceAt leader j ||
      (pool.distanceAt leader i == pool.distanceAt leader j && i ≤ j)

theorem index_ranking (pool : Pool) (leader : Member) :
    (ranking pool.members leader).map (·.index) = List.range pool.size := by
  rw [ranking, List.map_map, List.range_eq_range', Pool.size, ← Array.length_toList]
  exact List.zipIdx_map_snd 0 pool.members.toList

theorem distance_of_mem_ranking {a : Ranked} (ha : a ∈ ranking pool.members leader) :
    a.distance = pool.distanceAt leader a.index := by
  obtain ⟨⟨m, i⟩, hm, rfl⟩ := List.mem_map.mp ha
  rw [List.mem_zipIdx_iff_getElem?, Array.getElem?_toList] at hm
  simp only at hm
  simp [distanceAt, hm]

theorem nearestFirst_eq :
    pool.nearestFirst leader =
      ((ranking pool.members leader).mergeSort Ranked.le).map (·.index) := by
  rw [nearestFirst, ← index_ranking pool leader]
  refine (List.map_mergeSort fun a ha b hb => ?_).symm
  rw [← distance_of_mem_ranking ha, ← distance_of_mem_ranking hb]
  rfl

theorem nearestFirst_perm (pool : Pool) (leader : Member) :
    (pool.nearestFirst leader).Perm (List.range pool.size) :=
  List.mergeSort_perm _ _

/-- The heap holds the indices that come first in the sorted pool. -/
theorem exists_mateIndices (pool : Pool) (leader : Member) (count : Nat)
    (hroom : (count + 1) * 16 < 2 ^ 63) :
    ∃ indices, pool.mateIndices leader count = .ok indices ∧
      indices.Perm ((pool.nearestFirst leader).take count) := by
  have hpairwise : (ranking pool.members leader).Pairwise fun a b => a.index < b.index := by
    refine List.Pairwise.of_map (S := (· < ·)) (·.index) (fun _ _ h => h) ?_
    rw [index_ranking]
    exact List.pairwise_lt_range
  obtain ⟨_, hfirst⟩ := foldl_offerMate count hpairwise
  refine ⟨_, if_pos hroom, ?_⟩
  rw [nearestFirst_eq, ← List.map_take]
  exact hfirst.perm_take.map (·.index)

/-- The indices are places of the pool, so each of them has a member. -/
theorem exists_mates (pool : Pool) (leader : Member) (count : Nat)
    (hroom : (count + 1) * 16 < 2 ^ 63) : ∃ mates, pool.mates leader count = .ok mates := by
  obtain ⟨indices, hindices, hperm⟩ := pool.exists_mateIndices leader count hroom
  have hall : ∀ i ∈ indices, ∃ m, pool.memberAt i = .ok m := by
    intro i hi
    have hsorted : i ∈ pool.nearestFirst leader := List.mem_of_mem_take (hperm.mem_iff.mp hi)
    have hlt : i < pool.size :=
      List.mem_range.mp ((pool.nearestFirst_perm leader).mem_iff.mp hsorted)
    refine ⟨pool.member ⟨i, hlt⟩, ?_⟩
    rw [memberAt, pool.getElem?_members ⟨i, hlt⟩]
  obtain ⟨mates, hmates⟩ := exists_mapM hall
  exact ⟨mates, bind_eq_ok_iff.mpr ⟨indices, hindices, hmates⟩⟩

/-- **Mates.** The mates of a leader are different members, as many as are wanted if there are so
many, and they are those that come first when the members are ordered by their distance to the
leader and by their index. -/
theorem mateIndices_nearest (pool : Pool) (leader : Member) (count : Nat)
    (hcount : count < 2 ^ 58) :
    ∃ indices, pool.mateIndices leader count = .ok indices ∧ indices.Nodup ∧
      indices.length = min count pool.size ∧
      indices.Perm ((pool.nearestFirst leader).take count) := by
  obtain ⟨indices, hindices, hperm⟩ := pool.exists_mateIndices leader count (by omega)
  have hsorted := pool.nearestFirst_perm leader
  refine ⟨indices, hindices, ?_, ?_, hperm⟩
  · have hnodup := (hsorted.nodup_iff.mpr List.nodup_range).sublist (List.take_sublist count _)
    exact hperm.nodup_iff.mpr hnodup
  · rw [hperm.length_eq, List.length_take, hsorted.length_eq, List.length_range]

/-- The first member gives way to a nearer one, but the last one is too late: it is not nearer than
the two before it. -/
theorem mateIndices_nearest_of_ties :
    ∃ blank : Genes, Bits.blank? geneWords 4 = .ok blank ∧ 2 < 2 ^ 58 ∧
      ∃ pool, pool = Pool.mk #[⟨(blank.set 0).set 1, 0⟩, ⟨blank.set 0, 0⟩, ⟨blank.set 1, 0⟩,
          ⟨blank.set 2, 0⟩] ∧
        ∃ indices, pool.mateIndices ⟨blank, 0⟩ 2 = .ok indices ∧ indices.Nodup ∧
          indices.length = 2 ∧ indices.Perm [1, 2] := by
  obtain ⟨blank, hblank, hdistances⟩ :
      ∃ blank : Genes, Bits.blank? geneWords 4 = .ok blank ∧
        (List.range 4).map (Pool.distanceAt ⟨#[⟨(blank.set 0).set 1, 0⟩, ⟨blank.set 0, 0⟩,
          ⟨blank.set 1, 0⟩, ⟨blank.set 2, 0⟩]⟩ ⟨blank, 0⟩) = [2, 1, 1, 1] :=
    ⟨_, rfl, by decide +kernel⟩
  refine ⟨blank, hblank, by decide, _, rfl, ?_⟩
  generalize hpool : Pool.mk #[⟨(blank.set 0).set 1, 0⟩, ⟨blank.set 0, 0⟩, ⟨blank.set 1, 0⟩,
    ⟨blank.set 2, 0⟩] = pool at hdistances ⊢
  have hsize : pool.size = 4 := by
    rw [← hpool]
    rfl
  have hsorted : pool.nearestFirst ⟨blank, 0⟩ = [1, 2, 3, 0] := by
    simp only [List.range_succ, List.range_zero, List.nil_append, List.cons_append, List.map_cons,
      List.map_nil, List.cons.injEq] at hdistances
    simp [nearestFirst, hsize, List.range_succ, List.mergeSort, hdistances]
  obtain ⟨indices, hindices, hnodup, hlength, hperm⟩ := mateIndices_nearest pool ⟨blank, 0⟩ 2
    (by decide)
  rw [hsorted] at hperm
  rw [hsize] at hlength
  exact ⟨indices, hindices, hnodup, hlength, hperm⟩

end Pool

end SetCover
