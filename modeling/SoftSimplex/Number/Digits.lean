/-!
# Decimal digits

Digits with a decimal point: the number is `0.d₁d₂… * 10 ^ point`. The text of a number is laid out
from this form in positional or in scientific notation, or with a fixed number of places.
-/

namespace SoftSimplex.Number
set_option autoImplicit false

structure Digits where
  digits : List Char
  point : Int
  deriving DecidableEq, Repr

namespace Digits

/-- The digits of `n * 10 ^ exponent`, without zeros at the end. -/
def ofDecimal (n : Nat) (exponent : Int) : Digits :=
  let digits := Nat.toDigits 10 n
  ⟨(digits.reverse.dropWhile (· == '0')).reverse, digits.length + exponent⟩

def zero : Digits := ⟨['0'], 1⟩

def zeros (n : Int) : List Char := List.replicate n.toNat '0'

/-- All digits around the point; `wholeTail` follows a number without a fraction. -/
def positional (d : Digits) (wholeTail : String) : String :=
  let size : Int := d.digits.length
  if d.point ≤ 0 then "0." ++ String.ofList (zeros (-d.point) ++ d.digits)
  else if size ≤ d.point then
    String.ofList (d.digits ++ zeros (d.point - size)) ++ wholeTail
  else
    String.ofList (d.digits.take d.point.toNat) ++ "." ++
      String.ofList (d.digits.drop d.point.toNat)

/-- One digit before the point, and the exponent of ten with its sign. -/
def scientific (d : Digits) : String :=
  let exponent := d.point - 1
  let fraction := d.digits.drop 1
  String.ofList (d.digits.take 1) ++
    (if fraction.isEmpty then "" else "." ++ String.ofList fraction) ++
    "e" ++ (if exponent < 0 then "-" else "+") ++ toString exponent.natAbs

end Digits

end SoftSimplex.Number
