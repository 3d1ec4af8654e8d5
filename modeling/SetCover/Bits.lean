import SetCover.Bits.Scan
import SetCover.Ids
import SetCover.Search.Basic

/-!
# Bit vectors

A bit vector has room for 64 bits in each of its words, of which the first `width` are in use: it
stands for a set of numbers below its width. Changes outside of the width have no effect, and
operations on whole words are followed by `truncate`, so that unused bits stay zero.

* `Bits.blank?`, `Bits.ofIds?`: a vector without members, and the vector of a set.
* `Bits.get`, `Bits.ones`, `Bits.count`: the members.
* `Bits.set`, `Bits.clear`, `Bits.flip`, `Bits.assign`, `Bits.complement`, `Bits.xor`: changes.
* `Bits.distance`: the number of places where two vectors differ.
* `Bits.fill`: a vector with random members.
-/

namespace SetCover

/-- A vector of bits in `size` words. -/
structure Bits (size : Nat) where
  /-- The words; bit `i` of the vector is bit `i % 64` of word `i / 64`. -/
  words : Vector UInt64 size
  /-- The number of bits in use. -/
  width : Nat
  /-- There is room for them. -/
  width_le : width ≤ size * 64
  deriving DecidableEq

namespace Bits

variable {size : Nat}

/-- The number of bits that there is room for. -/
def capacity (size : Nat) : Nat := size * 64

/-- The vector without members; its width must not exceed the capacity. -/
def blank? (size width : Nat) : Except Fault (Bits size) :=
  if h : width ≤ size * 64 then .ok ⟨Vector.replicate size 0, width, h⟩
  else .error (.breach .overWide)

/-- Whether bit `i` is stored as one, in use or not. -/
def stored (b : Bits size) (i : Nat) : Bool := bitOf (b.words[i / 64]?.getD 0) (i % 64)

/-- Whether `i` is a member. -/
def get (b : Bits size) (i : Nat) : Bool := i < b.width && b.stored i

/-- Applies a change to the word of bit `i`, if that bit is in use. -/
def changeAt (b : Bits size) (i : Nat) (change : UInt64 → UInt64) : Bits size :=
  if h : i < b.width then
    have hw : i / 64 < size := by
      have := b.width_le
      omega
    { b with words := b.words.set (i / 64) (change b.words[i / 64]) hw }
  else b

/-- Makes `i` a member. -/
def set (b : Bits size) (i : Nat) : Bits size := b.changeAt i (· ||| oneBit (i % 64))

/-- Makes `i` no member. -/
def clear (b : Bits size) (i : Nat) : Bits size := b.changeAt i (· &&& ~~~oneBit (i % 64))

/-- Makes `i` a member if it is none, and no member if it is one. -/
def flip (b : Bits size) (i : Nat) : Bits size := b.changeAt i (· ^^^ oneBit (i % 64))

/-- Makes `i` a member or not. -/
def assign (b : Bits size) (i : Nat) (value : Bool) : Bits size :=
  if value then b.set i else b.clear i

/-- Clears every bit that is not in use. -/
def truncate (b : Bits size) : Bits size :=
  { b with words := b.words.mapIdx fun k w => w &&& lowBits (b.width - 64 * k) }

/-- The numbers below the width that are no members. -/
def complement (b : Bits size) : Bits size := { b with words := b.words.map (~~~·) }.truncate

/-- The members of one vector that are not members of the other, within the smaller width. -/
def xor (a b : Bits size) : Bits size :=
  truncate
    { words := Vector.zipWith (· ^^^ ·) a.words b.words
      width := min a.width b.width
      width_le := Nat.le_trans (Nat.min_le_left ..) a.width_le }

/-- Number of bits stored as one. -/
def count (b : Bits size) : Nat := (b.words.toList.map countBits).sum

/-- Number of places where the stored bits differ. -/
def distance (a b : Bits size) : Nat :=
  (List.zipWith (fun v w => countBits (v ^^^ w)) a.words.toList b.words.toList).sum

/-- The places of the bits stored as one, smallest first: those of the first word, then those of
the next ones. -/
def ones (b : Bits size) : List Nat :=
  b.words.toList.zipIdx.flatMap fun (w, k) => (setBits w).map (64 * k + ·)

theorem ones_ascending (b : Bits size) : b.ones.Pairwise (· < ·) := by
  refine List.pairwise_flatMap.mpr ⟨fun (w, k) _ => ?_, ?_⟩
  · refine List.pairwise_map.mpr ((setBits_ascending w).imp ?_)
    intro i j hij
    omega
  · -- the places in one word come before those in any later word
    refine List.pairwise_iff_getElem.mpr fun k l hk hl hkl => ?_
    intro i hi j hj
    rw [List.getElem_zipIdx] at hi hj
    obtain ⟨i', hi', rfl⟩ := List.mem_map.mp hi
    obtain ⟨j', hj', rfl⟩ := List.mem_map.mp hj
    have hi' := (mem_setBits.mp hi').1
    have hj' := (mem_setBits.mp hj').1
    omega

/-- The set of the bits stored as one. -/
def toIds (b : Bits size) : IdSet := ⟨b.ones, b.ones_ascending⟩

/-- The vector of the ids below the width. -/
def ofIds? (size : Nat) (ids : IdSet) (width : Nat) : Except Fault (Bits size) := do
  let b ← blank? size width
  pure ((ids.toList.takeWhile (· < width)).foldl set b)

/-- The bits in use as a text of zeros and ones. -/
def render (b : Bits size) : String :=
  let bits := String.ofList ((List.range b.width).map fun i => if b.get i then '1' else '0')
  s!"BitVector[{b.width}]({bits})"

/-! ## Random vectors -/

/-- The next `count` random words. -/
def drawWords : Nat → Search (List UInt64)
  | 0 => pure []
  | count + 1 => do
      let w ← Search.word
      pure (w :: (← drawWords count))

/-- Makes each number below the width a member with the same chance. Even odds fill whole words;
other odds take one draw for each number. -/
def fill (b : Bits size) (odds : Float) : Search (Bits size) := do
  if odds == 0.5 then
    let drawn ← drawWords size
    pure (truncate { b with words := Vector.ofFn fun k => drawn[k.val]?.getD 0 })
  else
    let filled ← (List.range b.width).foldlM
      (fun b i => do pure (b.assign i (← Search.favouredBy odds))) b
    pure filled.truncate

/-- A vector whose members are random. -/
def random (size width : Nat) (odds : Float) : Search (Bits size) := do
  let b ← blank? size width
  b.fill odds

end Bits

end SetCover
