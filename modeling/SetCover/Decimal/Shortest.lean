import SetCover.Binary

/-!
# The shortest decimal text of a binary number

A finite binary number is `mantissa * 2 ^ exponent`. Of the decimals that round back to it, the
text chosen here has the fewest digits, and of those the one nearest to the number. Of two that are
equally near it is the one farther from zero.

* `shortest`: digits and decimal exponent of the text.
* `place`: decimal digits written positionally.
* `positional`: the text itself, always positional, without a point on whole numbers.
-/

namespace SetCover.Decimal

/-- The decimals between two neighbours that still round to the number, scaled to whole numbers
for one decimal grid: `digits` stands for a decimal when `low ≤ digits * grid ≤ high`, and the
number itself is `value`. The ends belong to it when `closed` holds. -/
structure Bracket where
  low : Nat
  value : Nat
  high : Nat
  grid : Nat
  closed : Bool

/-- The bracket of a number on the grid of multiples of `10 ^ k`. All bounds are taken in quarters
of the last binary place, where the half-way points to both neighbours are whole. -/
def bracket (b : Binary) (k : Int) : Bracket :=
  let scale := 2 ^ (b.exponent - 2).toNat * 10 ^ (-k).toNat
  let below := if b.mantissa = 2 ^ 52 ∧ b.exponent > -1074 then 1 else 2
  { low := (4 * b.mantissa - below) * scale
    value := 4 * b.mantissa * scale
    high := (4 * b.mantissa + 2) * scale
    grid := 2 ^ (2 - b.exponent).toNat * 10 ^ k.toNat
    closed := b.mantissa % 2 = 0 }

/-- Whether the decimal with these digits rounds to the number. -/
def Bracket.holds (r : Bracket) (digits : Nat) : Bool :=
  let x := digits * r.grid
  if r.closed then r.low ≤ x && x ≤ r.high else r.low < x && x < r.high

/-- The point of the grid inside the bracket that is nearest to the number, if there is one: a
grid that meets the bracket meets it in one of the number's two neighbours. Of two neighbours that
are equally near it is the upper one. -/
def Bracket.nearest? (r : Bracket) : Option Nat :=
  let down := r.value / r.grid
  let up := down + 1
  match r.holds down && down != 0, r.holds up with
  | true, true =>
      let gapDown := r.value - down * r.grid
      let gapUp := up * r.grid - r.value
      if gapDown < gapUp then some down else some up
  | true, false => some down
  | false, true => some up
  | false, false => none

/-- The coarsest of the next `fuel` grids below `10 ^ k` that meets the bracket. -/
def searchGrid (b : Binary) : Nat → Int → Nat × Int
  | 0, k => (b.mantissa, k)
  | fuel + 1, k =>
      match (bracket b k).nearest? with
      | some digits => (digits, k)
      | none => searchGrid b fuel (k - 1)

/-- Largest `k` up to `limit` with `10 ^ k ≤ n`. -/
def log10 (n : Nat) (limit : Nat) : Nat :=
  ((List.range limit).takeWhile fun k => 10 ^ (k + 1) ≤ n).length

/-- Takes trailing zeros off a number and counts them into the exponent. -/
def stripZeros : Nat → Nat → Int → Nat × Int
  | 0, digits, k => (digits, k)
  | fuel + 1, digits, k =>
      if digits ≠ 0 ∧ digits % 10 = 0 then stripZeros fuel (digits / 10) (k + 1) else (digits, k)

/-- Digits and decimal exponent of the shortest decimal that rounds to a nonzero number. -/
def shortest (b : Binary) : Nat × Int :=
  let whole := b.mantissa * 2 ^ b.exponent.toNat / 2 ^ (-b.exponent).toNat
  let start : Int :=
    if whole = 0 then
      -- below one: the number of leading zeros of the fraction decides the first grid
      -((log10 (2 ^ (-b.exponent).toNat / b.mantissa) 400 : Nat) : Int)
    else (log10 whole 400 : Nat)
  let (digits, k) := searchGrid b 800 start
  stripZeros 400 digits k

/-- Writes `digits * 10 ^ k` positionally. -/
def place (digits : Nat) (k : Int) : String :=
  let text := toString digits
  if 0 ≤ k then text ++ String.ofList (List.replicate k.toNat '0')
  else
    let places := (-k).toNat
    let padded := List.replicate (places + 1 - text.length) '0' ++ text.toList
    let cut := padded.length - places
    String.ofList (padded.take cut) ++ "." ++ String.ofList (padded.drop cut)

/-- The word for a number that is not finite. -/
def word (x : Float) : String := if x.isNaN then "NaN" else if x < 0.0 then "-inf" else "inf"

/-- The shortest text that reads back to the same number, never with an exponent: `5`, `-2.5`,
`-0`, `inf`, `-inf`, `NaN`. -/
def positional (x : Float) : String :=
  match Binary.ofBits? x.toBits with
  | none => word x
  | some b =>
      let sign := if b.negative then "-" else ""
      if b.mantissa = 0 then sign ++ "0"
      else
        let (digits, k) := shortest b
        sign ++ place digits k

end SetCover.Decimal
