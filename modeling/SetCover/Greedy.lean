import SetCover.Selection
import SetCover.Search.Basic

/-!
# Greedy construction

A greedy construction takes subsets one after another, each drawn from the shortlist of the
cheapest subsets not taken yet, until all elements are covered. A subset is kept only if it covers
something new when it is taken. Prices are the costs, or the costs with noise.

* `offers`: what there is to take, cheapest first, and among equals the smaller id first.
* `shortlist`: the offers that a draw is made from.
* `grow`: the construction from some offers and the elements still to cover.
* `construct`: the construction for an instance, with its parameters checked.
-/

namespace SetCover.Greedy

/-! ## Offers -/

/-- A subset that can be taken, with its price. -/
structure Offer where
  price : Int
  id : Nat
  deriving DecidableEq

/-- Offers are ordered by price, and by id where prices are equal. -/
def Offer.le (a b : Offer) : Bool := a.price < b.price || (a.price == b.price && a.id ≤ b.id)

/-- The price that marks a subset as taken, so that it is never on offer. -/
def takenMark : Int := 2 ^ 63 - 1

/-- The offers for a list of prices, cheapest first. -/
def offers (prices : List Int) : List Offer :=
  ((prices.zipIdx.map fun p => (⟨p.1, p.2⟩ : Offer)).filter (·.price != takenMark)).mergeSort
    Offer.le

/-- The `size` cheapest offers; all of them, by id, when there are no more than that. -/
def shortlist (size : Nat) (pool : List Offer) : List Offer :=
  if size < pool.length then pool.take size else pool.mergeSort fun a b => a.id ≤ b.id

theorem mem_of_mem_shortlist {size : Nat} {pool : List Offer} {a : Offer}
    (h : a ∈ shortlist size pool) : a ∈ pool := by
  unfold shortlist at h
  split at h
  · exact List.mem_of_mem_take h
  · exact List.mem_mergeSort.1 h

/-- Taking an offer of the shortlist out of the pool makes the pool shorter. -/
theorem length_erase_shortlist_lt {size : Nat} {pool : List Offer}
    (i : Fin (shortlist size pool).length) :
    (pool.erase (shortlist size pool)[i]).length < pool.length := by
  have hmem : (shortlist size pool)[i] ∈ pool := mem_of_mem_shortlist (List.getElem_mem i.isLt)
  have := List.length_erase_of_mem hmem
  have := List.length_pos_of_mem hmem
  omega

/-! ## Construction -/

/-- Takes offers from the pool until no element is left, and gives the subsets kept. Fails, naming
an element that is left, when the pool runs dry. -/
def grow (inst : Instance) (size : Nat) (pool : List Offer) (left : List Nat) (kept : IdSet) :
    Search IdSet :=
  match left with
  | [] => pure kept
  | first :: more => do
      if (shortlist size pool).isEmpty then throw (.uncoverable first)
      let i ← Search.below (shortlist size pool).length
      let offer := (shortlist size pool)[i]
      let contents := inst.contentsOf offer.id
      let rest := (first :: more).filter (!contents.contains ·)
      let gained := more.length + 1 - rest.length
      Search.note
        (if gained ≠ 0 then .subsetPicked offer.id gained rest.length
          else .subsetPassedOver offer.id)
      grow inst size (pool.erase offer) rest (if gained ≠ 0 then kept.insert offer.id else kept)
termination_by pool.length
decreasing_by exact length_erase_shortlist_lt i

/-- The price of a subset: its cost, moved by at most `noise` when there is noise. Every price that
could come up has to be a signed number of 64 bits. -/
def price (noise cost : Int) : Search Int :=
  if noise ≤ 0 then pure cost
  else if -2 ^ 63 ≤ cost - noise ∧ cost + noise < 2 ^ 63 then
    Search.between (cost - noise) (cost + noise)
  else throw (.breach .overflow)

/-- A cover of the instance. Costs and noise are read with a sign, so noise of half of the range
or more is none. -/
def construct (inst : Instance) (size noise : Nat) : Search IdSet := do
  if size = 0 ∨ inst.subsetCount < size then
    throw (.invalid (.shortlistSize size inst.subsetCount))
  inst.requireCoverable
  let prices ← inst.costs.toList.mapM fun cost => price (signed noise) (signed cost)
  grow inst size (offers prices) (List.range inst.elementCount) .empty

end SetCover.Greedy
