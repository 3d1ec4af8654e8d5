import SetCover.Arithmetic

/-!
# Cooling

A cooling gives the temperature after a number of steps, from the temperature at the start and not
from the one before. Steps are counted up to the largest number of 32 bits, so that a very long run
keeps its last temperature.

* `Cooling.temperature`: the temperature after a number of steps.
* `stepCount`: the number of steps as a cooling sees it.
-/

namespace SetCover

/-- A way for the temperature to fall. -/
inductive Cooling where
  /-- The same amount less at each step, down to zero. -/
  | linear (step : Float)
  /-- The same share of it at each step. -/
  | geometric (alpha : Float)
  /-- The start over the logarithm of the number of steps, which is shifted so that it is one
  before the first step. -/
  | logarithmic
  /-- The start over one more than the number of steps. -/
  | cauchy

/-- The base of the natural logarithm. -/
def eulerNumber : Float := 2.718281828459045

/-- The temperature after `steps` steps. A linear cooling gives zero also where its value is
undefined. -/
def Cooling.temperature (cooling : Cooling) (start : Float) (steps : Nat) : Float :=
  let k := steps.toUInt64.toFloat
  match cooling with
  | linear step =>
      let t := start - step * k
      if 0.0 < t then t else 0.0
  | geometric alpha => start * alpha.pow k
  | logarithmic => start / (k + eulerNumber).log
  | cauchy => start / (1.0 + k)

/-- The number of steps as a cooling sees it. -/
def stepCount (completed : Nat) : Nat := min completed (2 ^ 32 - 1)

end SetCover
