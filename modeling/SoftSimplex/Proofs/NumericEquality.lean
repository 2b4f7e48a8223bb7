import Mathlib
import SoftSimplex.Scalar

/-!
# Equality of numbers

Values are compared as numbers, so a zero with a sign equals a zero without one. A value that does not
equal itself is no number. All that the published values need of an arithmetic is that equality is
symmetric and transitive and that adding zero keeps a number and makes none; exact rational and binary
floating-point arithmetic both have that.
-/

namespace SoftSimplex
set_option autoImplicit false

class NumericEquality (α : Type) [Scalar α] : Prop extends PartialEquivBEq α where
  zero_beq_zero : ((0 : α) == 0) = true
  add_beq {a d : α} (hNumber : (a == a) = true) (hZero : (d == 0) = true) : (a + d == a) = true
  number_of_add {a d : α} (hZero : (d == 0) = true) (hSum : (a + d == a + d) = true) :
    (a == a) = true

instance : NumericEquality Rat where
  zero_beq_zero := rfl
  add_beq {a d} _ hZero := by
    rw [beq_iff_eq.mp hZero, add_zero]
    exact beq_self_eq_true a
  number_of_add {a d} _ _ := beq_self_eq_true a

section Binary

open Float.Model Float.Model.UnpackedFloat

theorem unpack_of_beq_zero {d : Float} (h : (d == 0) = true) :
    ∃ sign, d.toModel.unpack = .zero sign := by
  rcases (Float.beq_iff_ne_nan_and_eq.mp h).2.2 with rfl | ⟨rfl, _⟩ | ⟨rfl, _⟩
  · exact ⟨.positive, (unpack_eq_zero_iff_of_valid (0 : Float).toModel.valid).mpr (by decide +kernel)⟩
  · exact ⟨.positive, (unpack_eq_zero_iff_of_valid (0 : Float).toModel.valid).mpr (by decide +kernel)⟩
  · exact ⟨.negative,
      (unpack_eq_zero_iff_of_valid (-0 : Float).toModel.valid).mpr (by decide +kernel)⟩

theorem ofModel_pack_unpack (a : Float) : Float.ofModel (Float.Model.pack a.toModel.unpack) = a :=
  Float.ofBits_toBits a

/-- Adding a zero changes at most the sign of another zero. -/
theorem add_of_beq_zero {a d : Float} (h : (d == 0) = true) :
    a + d = a ∨ (a == a) = true ∧ (a + d == a) = true := by
  obtain ⟨sign, hd⟩ := unpack_of_beq_zero h
  have hSum : a + d = .ofModel (Float.Model.pack
      (UnpackedFloat.add Format.binary64 a.toModel.unpack (.zero sign))) := by
    rw [← hd]
    rfl
  cases ha : a.toModel.unpack with
  | zero own =>
    right
    have hOwn : a = .ofModel (Float.Model.pack (.zero own)) := by rw [← ha, ofModel_pack_unpack]
    rw [hSum, ha, hOwn]
    cases own <;> cases sign <;> decide +kernel
  | infinity _ | notANumber | finite _ _ _ _ =>
    left
    rw [hSum, ha]
    conv_rhs => rw [← ofModel_pack_unpack a, ha]
    rfl

instance : NumericEquality Float where
  zero_beq_zero := by decide +kernel
  add_beq hNumber hZero := by
    rcases add_of_beq_zero hZero with hSame | ⟨_, hEqual⟩
    · rwa [hSame]
    · exact hEqual
  number_of_add hZero hSum := by
    rcases add_of_beq_zero hZero with hSame | ⟨hNumber, _⟩
    · rwa [hSame] at hSum
    · exact hNumber

end Binary

end SoftSimplex
