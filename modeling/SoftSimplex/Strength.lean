import SoftSimplex.Scalar

/-!
# Strengths

A strength is one number made of three tiers, each tier worth a thousand of the tier below. From
the required strength up a constraint must hold; below it, the violation of a constraint is weighed
by its strength.
-/

namespace SoftSimplex
set_option autoImplicit false

structure Strength (α : Type) where
  value : α

namespace Strength

variable {α : Type} [Scalar α]

def required : Strength α := ⟨Scalar.ofNat 1001001000⟩

def strong : Strength α := ⟨Scalar.ofNat 1000000⟩

def medium : Strength α := ⟨Scalar.ofNat 1000⟩

def weak : Strength α := ⟨1⟩

/-- A strength that weighs nothing. -/
def idle : Strength α := ⟨0⟩

/-- One tier: the weighted value, kept between zero and a thousand. -/
def tier (weight v : α) : α := Scalar.clamp 0 (Scalar.ofNat 1000) (v * weight)

def ofTiers (strong medium weak weight : α) : Strength α :=
  ⟨tier weight strong * Scalar.ofNat 1000000 + tier weight medium * Scalar.ofNat 1000
    + tier weight weak⟩

def scale (w : Strength α) (k : α) : Strength α := ⟨w.value * k⟩

def clip (w : Strength α) : Strength α := ⟨Scalar.clamp 0 (required : Strength α).value w.value⟩

def isRequired (w : Strength α) : Bool := decide ((required : Strength α).value ≤ w.value)

def compare? (v w : Strength α) : Option Ordering := Scalar.compare? v.value w.value

end Strength

end SoftSimplex
