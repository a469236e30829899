/-
**The fewest decimal digits that read back.**

A finite word stands for a number, and every real nearer to it than to its neighbours reads back as
the same word: the `Interval` of the word. A decimal grid of unit `10 ^ g` offers the two multiples
that enclose the number. `shortest` walks the grids from coarse to fine and takes **the first grid
with a multiple in the interval; of two such multiples the nearer one, and the upper one on a tie**.

Everything is exact arithmetic on natural numbers.
-/

import ActionCode.Floating.Binary

namespace ActionCode.Floating

/-- The decimal number `digits * 10 ^ exponent`. -/
structure Decimal where
  digits : Nat
  exponent : Int
deriving DecidableEq

/-- The reals that read back as a word, in quarters of its last place: with `unit = 2 ^ exponent`
they run from `low * unit` to `high * unit` around `center * unit`. -/
structure Interval where
  low : Nat
  center : Nat
  high : Nat
  exponent : Int
  /-- Whether both ends belong to the interval: a half goes to the even significand. -/
  closed : Bool

/-- The interval of a nonzero finite magnitude. Below a power of two the neighbour is half as far,
except at the least exponent. -/
def BinaryFormat.interval (format : BinaryFormat) (significand : Nat) (exponent : Int) : Interval :=
  let narrow := significand = format.fractions ∧ format.leastExponent < exponent
  { low := if narrow then 4 * significand - 1 else 4 * significand - 2
    center := 4 * significand
    high := 4 * significand + 2
    exponent := exponent - 2
    closed := significand % 2 = 0 }

/-- The factors by which a count of `2 ^ binary` is turned into a count of `10 ^ grid`: multiply by
the first, divide by the second. -/
def gridFactors (binary grid : Int) : Nat × Nat :=
  (Nat.pow 2 binary.toNat * Nat.pow 10 (-grid).toNat,
    Nat.pow 2 (-binary).toNat * Nat.pow 10 grid.toNat)

/-- Whether a multiple of `10 ^ grid`, counted in the units of `gridFactors`, reads back. -/
def Interval.holds (interval : Interval) (factor scaled : Nat) : Bool :=
  if interval.closed then
    decide (interval.low * factor ≤ scaled) && decide (scaled ≤ interval.high * factor)
  else
    decide (interval.low * factor < scaled) && decide (scaled < interval.high * factor)

/-- The multiple of `10 ^ grid` that stands for the interval on that grid, if one does. A grid whose
unit exceeds the number offers none. -/
def Interval.onGrid? (interval : Interval) (grid : Int) : Option Nat :=
  let (factor, divisor) := gridFactors interval.exponent grid
  let lower := interval.center * factor / divisor
  if lower = 0 then none
  else
    let upper := lower + 1
    match interval.holds factor (lower * divisor), interval.holds factor (upper * divisor) with
    | true, true =>
      if 2 * (interval.center * factor - lower * divisor) < divisor then some lower
      else some upper
    | true, false => some lower
    | false, true => some upper
    | false, false => none

/-- An exponent of ten at most two above that of the leading digit of `significand * 2 ^ exponent`,
and never below it. The fraction is a little more than the decimal logarithm of two. -/
def coarsestGrid (significand : Nat) (exponent : Int) : Int :=
  (exponent + Nat.log2 significand) * 30103 / 100000 + 1

/-- Drop trailing zeros of the digits, at most `fuel` of them. -/
def Decimal.trim (fuel : Nat) (decimal : Decimal) : Decimal :=
  match fuel with
  | 0 => decimal
  | fuel + 1 =>
    if decimal.digits ≠ 0 ∧ decimal.digits % 10 = 0 then
      trim fuel ⟨decimal.digits / 10, decimal.exponent + 1⟩
    else decimal

/-- The shortest decimal that reads back as a nonzero finite magnitude of a format. **Seventeen
digits always suffice**, so the twenty grids from the coarsest on hold one that stands for the
interval. -/
def BinaryFormat.shortest (format : BinaryFormat) (significand : Nat) (exponent : Int) : Decimal :=
  let interval := format.interval significand exponent
  let coarsest := coarsestGrid significand exponent
  let found := (List.range 20).findSome? fun (step : Nat) =>
    let grid := coarsest - (step : Int)
    (interval.onGrid? grid).map fun multiple => Decimal.mk multiple grid
  (found.getD ⟨0, 0⟩).trim 20

end ActionCode.Floating
