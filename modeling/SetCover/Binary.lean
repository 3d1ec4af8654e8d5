import SetCover.Arithmetic

/-!
# Binary numbers

The finite numbers among the floating-point numbers of 64 bits, as whole numbers: a number is
`mantissa * 2 ^ exponent`, with a sign.

* `Binary.ofBits?`, `Binary.ofFloat?`: the reading of a number.
* `Binary.floorScaled`: the whole part of a number times a power of two.
-/

namespace SetCover

/-- A finite number in binary: `mantissa * 2 ^ exponent`, with a sign. -/
structure Binary where
  /-- Whether the sign bit is set. -/
  negative : Bool
  /-- The 53-bit significand. -/
  mantissa : Nat
  /-- The power of two that scales it. -/
  exponent : Int
  deriving DecidableEq, Repr

/-- Reads 64 bits as a finite number: one sign bit, eleven exponent bits, 52 fraction bits.
Infinities and the undefined value have no reading. -/
def Binary.ofBits? (bits : UInt64) : Option Binary :=
  let b := bits.toNat
  let negative := b.testBit 63
  let biased : Nat := b / 2 ^ 52 % 2 ^ 11
  let fraction := b % 2 ^ 52
  if biased = 2 ^ 11 - 1 then none
  else if biased = 0 then some ⟨negative, fraction, -1074⟩
  else some ⟨negative, 2 ^ 52 + fraction, (biased : Int) - 1075⟩

/-- The finite number that a floating-point number is. -/
def Binary.ofFloat? (x : Float) : Option Binary := Binary.ofBits? x.toBits

/-- The whole part of the absolute value times `2 ^ places`. -/
def Binary.floorScaled (b : Binary) (places : Nat) : Nat :=
  let shift := b.exponent + places
  b.mantissa * 2 ^ shift.toNat / 2 ^ (-shift).toNat

end SetCover
