import SoftSimplex.Number.Binary64
import SoftSimplex.Number.Digits

/-!
# The shortest digits that read back

Reading a decimal gives the floating-point number nearest to it, so every number has an interval of
decimals that read back as it; the ends belong to the interval when the mantissa is even. The
shortest digits are those on the coarsest grid of powers of ten with a point in the interval, and
of two such points the nearer one. If both are equally near, the format decides.
-/

namespace SoftSimplex.Number
set_option autoImplicit false

/-- Which of two equally near decimals is written. -/
inductive Tie where
  | upward
  | toEven
  deriving DecidableEq, Repr

/-- A value and the ends of its interval, as numerators over one denominator. -/
structure Interval where
  low : Nat
  value : Nat
  high : Nat
  denominator : Nat
  closed : Bool

namespace Interval

/-- The interval of `mantissa * 2 ^ exponent`. The number below a power of two is half as far away
as the number above it, unless there are no smaller exponents. -/
def ofBinary (mantissa : Nat) (exponent : Int) : Interval :=
  let below :=
    if mantissa = Binary64.leadingBit ∧ Binary64.leastExponent < exponent then 1 else 2
  let unit := Nat.pow 2 (exponent - 2).toNat
  { low := (4 * mantissa - below) * unit
    value := 4 * mantissa * unit
    high := (4 * mantissa + 2) * unit
    denominator := Nat.pow 2 (2 - exponent).toNat
    closed := mantissa % 2 = 0 }

/-- The interval measured in units of `10 ^ power`. -/
def onGrid (i : Interval) (power : Int) : Interval :=
  let finer := Nat.pow 10 (-power).toNat
  { low := i.low * finer
    value := i.value * finer
    high := i.high * finer
    denominator := i.denominator * Nat.pow 10 power.toNat
    closed := i.closed }

def contains (i : Interval) (n : Nat) : Bool :=
  let x := n * i.denominator
  if i.closed then decide (i.low ≤ x) && decide (x ≤ i.high)
  else decide (i.low < x) && decide (x < i.high)

/-- The nearer to the value of `n` and `n + 1`. -/
def nearer (i : Interval) (tie : Tie) (n : Nat) : Nat :=
  match compare (2 * i.value) ((2 * n + 1) * i.denominator) with
  | .lt => n
  | .gt => n + 1
  | .eq =>
    match tie with
    | .upward => n + 1
    | .toEven => n + n % 2

/-- The whole number of units in the interval that is nearest to the value. -/
def pick? (i : Interval) (tie : Tie) : Option Nat :=
  let n := i.value / i.denominator
  match i.contains n, i.contains (n + 1) with
  | true, true => some (i.nearer tie n)
  | true, false => some n
  | false, true => some (n + 1)
  | false, false => none

/-- The power of ten of the value's first digit. -/
def leadingPower (i : Interval) : Int :=
  if i.denominator ≤ i.value then (Nat.toDigits 10 (i.value / i.denominator)).length - 1
  else -((Nat.toDigits 10 ((i.denominator - 1) / i.value)).length : Int)

end Interval

/-- Seventeen digits tell all numbers apart. -/
def mostDigits : Nat := 17

def shortest (tie : Tie) (mantissa : Nat) (exponent : Int) : Digits :=
  if mantissa = 0 then .zero
  else
    let interval := Interval.ofBinary mantissa exponent
    let leading := interval.leadingPower
    let hit := (List.range mostDigits).findSome? fun (i : Nat) =>
      let power := leading - i
      ((interval.onGrid power).pick? tie).map fun n => Digits.ofDecimal n power
    hit.getD .zero

end SoftSimplex.Number
