import SoftSimplex.Number.Shortest

/-!
# Number formats

A style gathers the decisions of a number format. Plain text is always positional and has no
fraction where there is none. JSON text keeps a fraction, turns to scientific notation outside
`10 ^ -5 ≤ x < 10 ^ 16`, and has no form but `null` for what is not a number.
-/

namespace SoftSimplex.Number
set_option autoImplicit false

structure Style where
  tie : Tie
  /-- Which positions of the point are written in positional notation. -/
  positional : Int → Bool
  /-- What follows a number without a fraction in positional notation. -/
  wholeTail : String
  nan : String
  infinite : Bool → String

def signed (negative : Bool) (text : String) : String := if negative then "-" ++ text else text

namespace Style

def plain : Style where
  tie := .upward
  positional _ := true
  wholeTail := ""
  nan := "NaN"
  infinite negative := signed negative "inf"

def json : Style where
  tie := .toEven
  positional point := decide (-4 ≤ point) && decide (point ≤ 16)
  wholeTail := ".0"
  nan := "null"
  infinite _ := "null"

/-- The text of a number: its shortest digits, laid out by the style. Zero keeps its sign. -/
def render (style : Style) (x : Float) : String :=
  match Binary64.ofFloat x with
  | .nan => style.nan
  | .infinite negative => style.infinite negative
  | .finite negative mantissa exponent =>
    let d := shortest style.tie mantissa exponent
    signed negative
      (if style.positional d.point then d.positional style.wholeTail else d.scientific)

end Style

end SoftSimplex.Number
