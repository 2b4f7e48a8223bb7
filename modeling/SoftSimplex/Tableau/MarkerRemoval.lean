import SoftSimplex.LeastRatio
import SoftSimplex.Tableau

/-!
# Dropping a marker

Removing a constraint drops the column of its marker. A basic marker leaves with its row. Any other
marker is pivoted into a row that leaves with it: the restricted row with the least ratio among the
negative coefficients, else among the positive ones, else the last external row.
-/

namespace SoftSimplex
set_option autoImplicit false

namespace Tableau

variable {α : Type} [Scalar α]

def markerRows (t : Tableau α) (marker : Symbol) : List (Symbol × Row α) :=
  t.rows.entries.filter fun e => !(e.2.coefficient marker == 0)

def markerLeavingRow? (t : Tableau α) (marker : Symbol) : Option (Symbol × Row α) :=
  let restricted := (t.markerRows marker).filter fun e => !e.1.isExternal
  let (negative, positive) := restricted.partition fun e => decide (e.2.coefficient marker < 0)
  let falling := negative.map fun e => (e, -e.2.constant / e.2.coefficient marker)
  let rising := positive.map fun e => (e, e.2.constant / e.2.coefficient marker)
  LeastRatio.choose falling <|> LeastRatio.choose rising <|>
    ((t.markerRows marker).filter fun e => e.1.isExternal).getLast?

/-- The tableau without the marker, unless no row has it. -/
def dropMarker? (t : Tableau α) (marker : Symbol) : Option (Tableau α) :=
  match t.rows.get? marker with
  | some _ => some (t.eraseRow marker)
  | none => (t.markerLeavingRow? marker).map fun (leaving, row) => t.eliminate leaving row marker

end Tableau

end SoftSimplex
