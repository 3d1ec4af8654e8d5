import SetCover.Genetic.Member

/-!
# Mates

The mates of a leader are the members of a pool nearest to it. They are collected in a heap whose
root is the farthest of them, so that a nearer member can take its place. The order of the entries
in the heap is part of the result, because a later draw picks among them by place.

* `Ranked.le`: entries are compared by distance, and by index where distances are equal.
* `Heap.insert`, `Heap.dropRoot`: the operations of the heap.
* `nearestMembers`: the indices of the mates, as the heap leaves them.
-/

namespace SetCover

/-- A member of a pool: its distance to the leader, and its index. -/
structure Ranked where
  distance : Nat
  index : Nat
  deriving DecidableEq, Inhabited

/-- Entries are ordered by distance, and by index where distances are equal. -/
def Ranked.le (a b : Ranked) : Bool :=
  a.distance < b.distance || (a.distance == b.distance && a.index ≤ b.index)

/-- A binary heap in level order: no entry exceeds the one above it. -/
abbrev Heap := Array Ranked

namespace Heap

/-- The entry at a place. -/
def entry (h : Heap) (i : Nat) : Ranked := h[i]?.getD default

/-- Moves the entry at place `i` up for as long as it exceeds the one above it. -/
def siftUp (h : Heap) (i : Nat) : Heap :=
  if 0 < i ∧ !(h.entry i).le (h.entry ((i - 1) / 2)) then
    siftUp (h.swapIfInBounds i ((i - 1) / 2)) ((i - 1) / 2)
  else h
termination_by i

/-- Moves the entry at place `i` down to a leaf, always past the larger of the two entries below
it, and gives the place where it ends. -/
def siftDown (h : Heap) (i : Nat) : Heap × Nat :=
  if 2 * i + 2 < h.size then
    let child :=
      if (h.entry (2 * i + 1)).le (h.entry (2 * i + 2)) then 2 * i + 2 else 2 * i + 1
    siftDown (h.swapIfInBounds i child) child
  else if 2 * i + 2 = h.size then (h.swapIfInBounds i (2 * i + 1), 2 * i + 1)
  else (h, i)
termination_by h.size - i
decreasing_by
  simp only [Array.size_swapIfInBounds]
  split <;> omega

/-- Adds an entry. -/
def insert (h : Heap) (e : Ranked) : Heap := siftUp (h.push e) h.size

/-- Takes the root out. The last entry takes its place, goes down to a leaf and from there up to
where it belongs. -/
def dropRoot (h : Heap) : Heap :=
  match h.back? with
  | none => h
  | some last =>
      let rest := h.pop
      if rest.isEmpty then rest
      else
        let (sunk, place) := siftDown (rest.setIfInBounds 0 last) 0
        siftUp sunk place

end Heap

/-- Offers an entry to the heap of the `count` nearest: it comes in while there is room, and later
only in place of a farther one. -/
def offerMate (count : Nat) (h : Heap) (e : Ranked) : Heap :=
  if h.size < count then h.insert e
  else
    match h[0]? with
    | some farthest => if e.distance < farthest.distance then h.dropRoot.insert e else h
    | none => h

/-- The entries of the members, in the order of the pool. -/
def ranking (members : Array Member) (leader : Member) : List Ranked :=
  members.toList.zipIdx.map fun p => ⟨p.1.distance leader, p.2⟩

/-- The indices of the `count` members nearest to the leader, as the heap leaves them. There has to
be room for that many entries of 16 bytes and one more. -/
def nearestMembers (members : Array Member) (leader : Member) (count : Nat) :
    Except Fault (List Nat) :=
  if (count + 1) * 16 < 2 ^ 63 then
    .ok (((ranking members leader).foldl (offerMate count) #[]).toList.map (·.index))
  else .error (.breach .overLong)

end SetCover
