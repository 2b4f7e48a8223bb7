import SoftSimplex.Number.Binary64
import SoftSimplex.Number.Style

/-!
# A fixed number of places

The exact value is rounded to a number of places; a half goes to the even neighbour. A negative
number keeps its sign even when it is rounded to zero.
-/

namespace SoftSimplex.Number
set_option autoImplicit false

/-- The whole number nearest to a quotient; a half goes to the even neighbour. -/
def divideToEven (numerator denominator : Nat) : Nat :=
  let n := numerator / denominator
  match compare (2 * (numerator % denominator)) denominator with
  | .lt => n
  | .gt => n + 1
  | .eq => n + n % 2

/-- A whole number of units `10 ^ -places`, written out. -/
def placesText (units places : Nat) : String :=
  let digits := Nat.toDigits 10 units
  let padded := List.replicate (places + 1 - digits.length) '0' ++ digits
  let whole := padded.length - places
  String.ofList (padded.take whole) ++ "." ++ String.ofList (padded.drop whole)

def fixed (places : Nat) (x : Float) : String :=
  match Binary64.ofFloat x with
  | .nan => Style.plain.nan
  | .infinite negative => Style.plain.infinite negative
  | .finite negative mantissa exponent =>
    let numerator := mantissa * Nat.pow 2 exponent.toNat * Nat.pow 10 places
    signed negative (placesText (divideToEven numerator (Nat.pow 2 (-exponent).toNat)) places)

def alignRight (width : Nat) (text : String) : String :=
  String.ofList (List.replicate (width - text.length) ' ') ++ text

def alignLeft (width : Nat) (text : String) : String :=
  text ++ String.ofList (List.replicate (width - text.length) ' ')

end SoftSimplex.Number
