import SetCover.Decimal.Shortest

/-!
# Decimal texts with a fixed number of places

A text with so many places after the point need not read back to its number. It is the nearest
decimal of that many places, and of two that are equally near the one with the even last digit.

* `roundDiv`: the rounding of a quotient.
* `fixed`: the text.
-/

namespace SetCover.Decimal

/-- The whole number nearest to `n / d`; of two that are equally near, the even one. -/
def roundDiv (n d : Nat) : Nat :=
  if d < 2 * (n % d) ∨ 2 * (n % d) = d ∧ n / d % 2 = 1 then n / d + 1 else n / d

/-- The text of a number with `places` places after the point: `2.5000`, `-0.0000`, `inf`. -/
def fixed (places : Nat) (x : Float) : String :=
  match Binary.ofBits? x.toBits with
  | none => word x
  | some b =>
      let digits := roundDiv (b.mantissa * 10 ^ places * 2 ^ b.exponent.toNat)
        (2 ^ (-b.exponent).toNat)
      (if b.negative then "-" else "") ++ place digits (-(places : Int))

end SetCover.Decimal
