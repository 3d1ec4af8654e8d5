import SetCover.Genetic.Member

/-!
# Crossover

A child takes each gene from the leader or from a mate, by the toss of a coin. Children are made
until one of them is a cover.

* `crossover`: a child of two parents.
* `offspring`: the first child that is a cover, among a number of attempts.
-/

namespace SetCover

/-- A child whose genes come from the leader with chance `copy` each, and from the mate
otherwise. -/
def crossover (copy : Float) (leader mate : Genes) : Search Genes := do
  let child ← Bits.blank? geneWords leader.width
  let child ← (List.range leader.width).foldlM
    (fun child i => do
      let parent := if ← Search.favouredBy copy then leader else mate
      pure (child.assign i (parent.get i)))
    child
  pure child.truncate

/-- Makes children until one is a cover, `left` times at most; the journal says so when all
`attempts` failed. Each child has a mate of its own. -/
def offspringFrom (inst : Instance) (copy : Float) (attempts : Nat) (leader : Member)
    (mates : List Member) : Nat → Search (Option Member)
  | 0 => do
      Search.note (.crossoversExhausted attempts)
      pure none
  | left + 1 => do
      let i ← Search.below mates.length
      let child ← crossover copy leader.genes (mates.get i).genes
      if inst.coveredBy child.get then
        let member ← Member.of? inst child
        pure (some member)
      else offspringFrom inst copy attempts leader mates left

/-- The first child that is a cover; none without mates, and none when all attempts fail. -/
def offspring (inst : Instance) (copy : Float) (attempts : Nat) (leader : Member)
    (mates : List Member) : Search (Option Member) :=
  if mates.isEmpty then pure none
  else offspringFrom inst copy attempts leader mates attempts

end SetCover
