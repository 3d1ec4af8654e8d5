import SetCover.Bits
import SetCover.Selection

/-!
# Members of a pool

A member is a choice of subsets written as a bit vector, with its cost. It need not be a cover.

* `Member.of?`, `Member.of`: the member with given genes, with and without a check of them.
* `Member.ofSelection`, `Member.toSelection`: from a selection and back to one.
* `Member.isCover`, `Member.distance`: whether it covers, and how far apart two members are.
-/

namespace SetCover

/-- Number of words in a vector of genes. -/
def geneWords : Nat := 16

/-- A choice of subsets, one bit for each. -/
abbrev Genes := Bits geneWords

/-- The number of subsets that genes have room for. -/
def geneCapacity : Nat := Bits.capacity geneWords

/-- A choice of subsets with its cost. -/
structure Member where
  genes : Genes
  cost : Nat
  deriving DecidableEq

namespace Member

/-- The member with given genes, which all have to stand for known subsets. -/
def of? (inst : Instance) (genes : Genes) : Except Fault Member := do
  pure ⟨genes, ← inst.weightOf genes.ones⟩

/-- The member that `of?` gives when its genes are in order. -/
def of (inst : Instance) (genes : Genes) : Member := ⟨genes, inst.weight genes.ones⟩

/-- A selection as a member, which takes its stored cost. -/
def ofSelection (inst : Instance) (s : Selection) : Except Fault Member := do
  pure ⟨← Bits.ofIds? geneWords s.ids inst.subsetCount, s.cost⟩

/-- A member as a selection, whose cost is that of its subsets. -/
def toSelection (inst : Instance) (m : Member) : Except Fault Selection :=
  Selection.of inst m.genes.toIds

/-- Whether the chosen subsets hold every element. -/
def isCover (inst : Instance) (m : Member) : Bool := inst.coveredBy m.genes.get

/-- Number of subsets that are chosen by one of two members only. -/
def distance (a b : Member) : Nat := a.genes.distance b.genes

end Member

end SetCover
