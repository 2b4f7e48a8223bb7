import SoftSimplex.Tableau
import SoftSimplex.Tag

/-!
# Moving the constant of an equation

Suggesting another value for an edit variable moves the constant of its constraint. The move shows
in the row of the constraint's marker if that is basic, else in the row of its other column, else in
every row that has the marker as a cell.
-/

namespace SoftSimplex
set_option autoImplicit false

namespace Tableau

variable {α : Type} [Scalar α]

/-- Adds to the constant of one basic row and queues the row if it ends below zero. -/
def addToBasic (t : Tableau α) (basic : Symbol) (row : Row α) (v : α) : Tableau α :=
  let row := row.addConstant v
  let t := t.insertRow basic row
  if row.constant < 0 then { t with infeasible := basic :: t.infeasible } else t

/-- Lets a non-basic marker move by `delta` in every row that has it. -/
def moveMarker (t : Tableau α) (marker : Symbol) (delta : α) : Tableau α :=
  let moves (r : Row α) : Bool := !(r.coefficient marker == 0)
  let rows := t.rows.mapValues fun _ r =>
    if moves r then r.addConstant (delta * r.coefficient marker) else r
  let queued := rows.entries.filterMap fun e =>
    if !e.1.isExternal && moves e.2 && decide (e.2.constant < 0) then some e.1 else none
  let noted := rows.entries.filterMap fun e =>
    if e.1.isExternal && moves e.2 then some e.1 else none
  { t with
    rows
    infeasible := queued.reverse ++ t.infeasible
    touched := noted.reverse ++ t.touched }

/-- Moves the constant of the equation behind a tag by `-delta`. -/
def shiftEdit (t : Tableau α) (tag : Tag) (delta : α) : Tableau α :=
  match t.rows.get? tag.marker with
  | some row => t.addToBasic tag.marker row (-delta)
  | none =>
    match tag.other.bind fun s => (t.rows.get? s).map (s, ·) with
    | some (s, row) => t.addToBasic s row delta
    | none => t.moveMarker tag.marker delta

end Tableau

end SoftSimplex
