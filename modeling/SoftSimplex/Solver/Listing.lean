import SoftSimplex.Number.Style
import SoftSimplex.Solver

/-!
# The listing of a solver

A listing shows the objective, the tableau, the queue, the tracked variables in column order, the
edit variables and the constraints. A variable without a name is shown by its number.
-/

namespace SoftSimplex
set_option autoImplicit false

open Number (Style)

def Row.render (r : Row Float) : String :=
  r.cells.entries.foldl
    (fun text e => text ++ " + " ++ Style.plain.render e.2 ++ " * " ++ e.1.render)
    (Style.plain.render r.constant)

namespace Solver

def displayName (s : Solver Float) (v : Variable) : String :=
  match s.names.get? v with
  | some name => name
  | none => "var" ++ toString v.id

def constraintLine (s : Solver Float) (c : Constraint Float) : String :=
  let terms := c.expression.terms.map fun t =>
    Style.plain.render t.coefficient ++ " * " ++ s.displayName t.var ++ " + "
  "".intercalate terms ++ Style.plain.render c.expression.constant ++ " " ++ c.relation.render ++
    " 0 | strength = " ++ Style.plain.render c.strength.value

/-- A title, a rule of its length, and lines. -/
def listingSection (title : String) (lines : List String) : List String :=
  title :: String.ofList (List.replicate title.length '-') :: lines

def rowLines (s : Solver Float) : List String :=
  s.tableau.rows.entries.map fun e => e.1.render ++ " | " ++ e.2.render

def variableLines (s : Solver Float) : List String :=
  let inOrder := s.tracked.records.entries.mergeSort fun a b =>
    decide (a.2.symbol.id ≤ b.2.symbol.id)
  inOrder.map fun e =>
    s.displayName e.1 ++ " = " ++ e.2.symbol.render ++ " (refs " ++ toString e.2.references ++ ")"

def editLines (s : Solver Float) : List String :=
  s.edits.entries.map fun e =>
    s.displayName e.1 ++ " = " ++ Style.plain.render e.2.value ++ " (marker " ++
      e.2.tag.marker.render ++ ")"

/-- The lines of the listing; a blank line stands between two sections. -/
def listingLines (s : Solver Float) : List String :=
  [""].intercalate
    [listingSection "Objective" [s.tableau.objective.render],
      listingSection "Tableau" s.rowLines,
      listingSection "Infeasible" (s.tableau.infeasible.reverse.map Symbol.render),
      listingSection "Variables" s.variableLines,
      listingSection "Edit Variables" s.editLines,
      listingSection "Constraints" (s.constraintList.map s.constraintLine)]

def listing (s : Solver Float) : String :=
  s.listingLines.foldl (fun text line => text ++ line ++ "\n") ""

end Solver

end SoftSimplex
