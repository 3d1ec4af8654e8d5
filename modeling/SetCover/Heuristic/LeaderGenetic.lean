import SetCover.Genetic.Crossover
import SetCover.Genetic.Pool
import SetCover.Heuristic.Anytime
import SetCover.Heuristic.Multistart
import SetCover.Heuristic.Settings

/-!
# Genetic search around a leader

A leader is crossed, generation after generation, with one of the members of a pool nearest to it.
An offspring that is a cover competes with the leader, and the loser with the pool.

* `LeaderGenetic.Parameters.check`: which parameters are refused, and in which order.
* `LeaderGenetic.generation`: one generation.
* `leaderGenetic`: the whole heuristic.
-/

namespace SetCover

namespace LeaderGenetic

/-- The parameters of a run. -/
structure Parameters where
  /-- Number of members besides the leader. -/
  poolSize : Nat
  /-- Number of members that are near enough to be mates. -/
  mates : Nat
  /-- The chance of a gene to come from the leader. -/
  copy : Float
  /-- Number of members drawn for a tournament. -/
  sample : Nat

/-- Refuses impossible parameters, and instances with more subsets than genes. -/
def Parameters.check (p : Parameters) (subsetCount : Nat) : Except Fault Unit :=
  if geneCapacity < subsetCount then .error (.tooWide subsetCount geneCapacity)
  else if p.poolSize = 0 then .error (.invalid .emptyPool)
  else if p.mates = 0 ∨ p.poolSize < p.mates then .error (.invalid (.mateCount p.mates p.poolSize))
  else if !(0.0 ≤ p.copy && p.copy ≤ 1.0) then .error (.invalid (.copyChance p.copy))
  else if p.sample = 0 then .error (.invalid .emptyTournament)
  else .ok ()

/-- What a run works on. -/
structure State where
  leader : Member
  pool : Pool

/-- One generation: an offspring of the leader and one of its mates, if one is found, challenges
the leader. -/
def generation (inst : Instance) (attempts : Nat) (p : Parameters) (i : Nat) (s : State) :
    Search State := do
  let mates ← s.pool.mates s.leader p.mates
  match ← offspring inst p.copy attempts s.leader mates with
  | none => pure s
  | some child =>
      let outcome ← s.pool.challenge s.leader child p.sample
      if outcome.changed then
        Search.note (.leaderImproved i s.leader.cost outcome.leader.cost)
      pure ⟨outcome.leader, outcome.pool⟩

end LeaderGenetic

/-- Genetic search; the first leader is the cheapest-first construction. -/
def leaderGenetic (inst : Instance) (settings : Settings) (budget : Nat)
    (p : LeaderGenetic.Parameters) : Job where
  State := LeaderGenetic.State
  start := do
    p.check inst.subsetCount
    let s ← cheapestFirst inst
    let leader ← Member.ofSelection inst s
    let pool ← Pool.random inst p.poolSize
    pure ⟨leader, pool⟩
  rounds :=
    { live := fun _ => true
      round := LeaderGenetic.generation inst settings.crossoverAttempts p }
  answer := fun s => s.leader.toSelection inst
  budget
  limit := settings.rounds

end SetCover
