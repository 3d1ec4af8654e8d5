import SetCover.Arithmetic

/-!
# Numerals

Unsigned numbers of 64 bits in decimal: an optional plus sign and at least one ASCII digit.

* `numeral?`: the number that a numeral stands for.
* `digitsValue`: the value of a list of digits.
-/

namespace SetCover.Text

/-- The value of decimal digits, most significant first. -/
def digitsValue (digits : List Char) : Nat :=
  digits.foldl (fun n c => 10 * n + (c.toNat - '0'.toNat)) 0

/-- Takes an optional plus sign off. -/
def dropPlus : List Char → List Char
  | '+' :: rest => rest
  | cs => cs

/-- The number below `2 ^ 64` that a numeral stands for. -/
def numeral? (text : String) : Option Nat :=
  let digits := dropPlus text.toList
  if !digits.isEmpty && digits.all Char.isDigit && digitsValue digits < 2 ^ 64 then
    some (digitsValue digits)
  else none

end SetCover.Text
