/-!
# The contents of a floating-point number

A finite number is `± mantissa * 2 ^ exponent`. The least exponent belongs to the subnormal numbers
and to the normal numbers next above them.
-/

namespace SoftSimplex.Number
set_option autoImplicit false

inductive Binary64 where
  | nan
  | infinite (negative : Bool)
  | finite (negative : Bool) (mantissa : Nat) (exponent : Int)
  deriving DecidableEq, Repr

namespace Binary64

def leastExponent : Int := -1074

/-- The mantissa of the least normal number of an exponent. -/
def leadingBit : Nat := Nat.pow 2 52

def ofFloat (x : Float) : Binary64 :=
  let bits := x.toBits.toNat
  let negative := bits.testBit 63
  let biased := bits / leadingBit % Nat.pow 2 11
  let fraction := bits % leadingBit
  if biased = 2047 then if fraction = 0 then .infinite negative else .nan
  else if biased = 0 then .finite negative fraction leastExponent
  else .finite negative (leadingBit + fraction) (leastExponent + (biased - 1 : Nat))

end Binary64

end SoftSimplex.Number
