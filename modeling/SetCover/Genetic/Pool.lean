import SetCover.Genetic.Mates

/-!
# Pools

A pool is a sequence of members. It keeps its size: a new member takes the place of an old one,
which is found by a tournament among members drawn at random.

* `Pool.random`: a pool of random members.
* `Pool.mates`: the members nearest to a leader.
* `Pool.enroll`: a candidate against the nearest of some random members.
* `Pool.challenge`: an offspring against the leader, and the loser against the pool.
-/

namespace SetCover

/-- A sequence of members. -/
structure Pool where
  members : Array Member

namespace Pool

/-- The number of members. -/
def size (pool : Pool) : Nat := pool.members.size

/-- Draws `count` random members. -/
def drawMembers (inst : Instance) : Nat → List Member → Search (List Member)
  | 0, drawn => pure drawn.reverse
  | count + 1, drawn => do
      let genes ← Bits.random geneWords inst.subsetCount 0.5
      let member ← Member.of? inst genes
      drawMembers inst count (member :: drawn)

/-- A pool of `size` random members, in which every subset is chosen with even odds. There has to
be room for that many entries of 144 bytes. -/
def random (inst : Instance) (size : Nat) : Search Pool := do
  if 2 ^ 63 ≤ size * 144 then throw (.breach .overLong)
  let members ← drawMembers inst size []
  pure ⟨members.toArray⟩

/-- The indices of the `count` members nearest to the leader. -/
def mateIndices (pool : Pool) (leader : Member) (count : Nat) : Except Fault (List Nat) :=
  nearestMembers pool.members leader count

/-- The member at a place, which has to be a place of the pool. -/
def memberAt (pool : Pool) (i : Nat) : Except Fault Member :=
  match pool.members[i]? with
  | some m => .ok m
  | none => .error (.breach .unknownPlace)

/-- The `count` members nearest to the leader. -/
def mates (pool : Pool) (leader : Member) (count : Nat) : Except Fault (List Member) := do
  let indices ← pool.mateIndices leader count
  indices.mapM pool.memberAt

/-- The cheapest member, the first of them where costs are equal. -/
def best? (pool : Pool) : Option Member :=
  pool.members.toList.foldl
    (fun best m => if best.any (·.cost ≤ m.cost) then best else some m) none

/-! ## Tournaments -/

/-- The member at a place of the pool. -/
def member (pool : Pool) (i : Fin pool.size) : Member :=
  have hi : i.val < pool.members.size := i.isLt
  pool.members[i.val]

/-- The nearest to a candidate of `nearest` and `count` more members drawn at random, the first
drawn of them where distances are equal. -/
def nearestDrawn (pool : Pool) (candidate : Member) :
    Nat → Fin pool.size → Search (Fin pool.size)
  | 0, nearest => pure nearest
  | count + 1, nearest => do
      let i ← Search.below pool.size
      pool.nearestDrawn candidate count
        (if (pool.member i).distance candidate < (pool.member nearest).distance candidate then i
          else nearest)

/-- Puts a candidate in the place of the nearest of `sample` members drawn at random, if it is
cheaper. Gives the pool after that and the place that was taken. -/
def enroll (pool : Pool) (candidate : Member) (sample : Nat) : Search (Pool × Option Nat) := do
  if pool.size = 0 ∨ sample = 0 then pure (pool, none)
  else
    let first ← Search.below pool.size
    let nearest ← pool.nearestDrawn candidate (sample - 1) first
    let old := pool.member nearest
    if candidate.cost < old.cost then
      Search.note (.memberReplaced nearest old.cost candidate.cost)
      pure (⟨pool.members.set nearest candidate nearest.isLt⟩, some nearest.val)
    else pure (pool, none)

/-- What comes of an offspring. -/
structure Outcome where
  /-- The cheaper of leader and offspring; the leader where costs are equal. -/
  leader : Member
  /-- The pool after the other one was offered to it. -/
  pool : Pool
  /-- Whether the offspring is the new leader. -/
  changed : Bool

/-- An offspring that is cheaper than the leader takes its place; the one that is not leader
afterwards is offered to the pool. -/
def challenge (pool : Pool) (leader offspring : Member) (sample : Nat) : Search Outcome := do
  if offspring.cost < leader.cost then
    let (pool, _) ← pool.enroll leader sample
    pure ⟨offspring, pool, true⟩
  else
    let (pool, _) ← pool.enroll offspring sample
    pure ⟨leader, pool, false⟩

end Pool

end SetCover
