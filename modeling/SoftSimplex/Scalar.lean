/-!
# Arithmetic of the solver

Rows, strengths and values are written over any type with the four operations and comparisons. No
law is assumed, so the same definitions run on binary floating point and can be studied over the
exact rational numbers. Three things are left to the arithmetic: which values are too small to
store, whether there is an infinity, and how a value is cut to a natural number.
-/

namespace SoftSimplex
set_option autoImplicit false

class Scalar (α : Type) extends
    Zero α, One α, Neg α, Add α, Sub α, Mul α, Div α, BEq α, LT α, LE α where
  decLT : ∀ a b : α, Decidable (a < b)
  decLE : ∀ a b : α, Decidable (a ≤ b)
  ofNat : Nat → α
  /-- Holds of the values that a row treats as no coefficient at all. -/
  negligible : α → Bool
  /-- The value above every number, in an arithmetic that has one. -/
  infinity : Option α
  /-- The whole units in a value; a negative value has none. -/
  wholeUnits : α → Nat

attribute [reducible, instance] Scalar.decLT Scalar.decLE

namespace Scalar

variable {α : Type} [Scalar α]

/-- Holds strictly between the two infinities, and of everything where there are none. -/
def isFinite (x : α) : Bool :=
  match (infinity : Option α) with
  | none => true
  | some top => decide (-top < x) && decide (x < top)

/-- The nearest value of the interval; an unordered value stays as it is. -/
def clamp (low high x : α) : α :=
  if x < low then low else if high < x then high else x

def compare? (a b : α) : Option Ordering :=
  if a == b then some .eq else if a < b then some .lt else if b < a then some .gt else none

/-- The same arithmetic with every value strictly between `-ε` and `ε` negligible. -/
@[reducible]
def withTolerance (base : Scalar α) (ε : α) : Scalar α :=
  { base with negligible := fun v => decide (-ε < v) && decide (v < ε) }

end Scalar

/-- Binary floating point, where a magnitude below one hundred-millionth is negligible. -/
instance instScalarFloat : Scalar Float where
  decLT := inferInstance
  decLE := inferInstance
  ofNat := Float.ofNat
  negligible v := decide (v.abs < 1e-8)
  infinity := some (1 / 0)
  wholeUnits v := v.toUInt64.toNat

/-- Exact rational numbers, where only zero is negligible. -/
instance instScalarRat : Scalar Rat where
  toZero := @Zero.ofOfNat0 Rat Rat.instOfNat
  toOne := @One.ofOfNat1 Rat Rat.instOfNat
  decLT := inferInstance
  decLE := inferInstance
  ofNat n := n
  negligible v := v == 0
  infinity := none
  wholeUnits v := v.floor.toNat

end SoftSimplex
