import SoftSimplex.Solver
import SoftSimplex.Tableau.Dual
import SoftSimplex.Tableau.MarkerRemoval

/-!
# Removing a constraint

The objective first forgets the constraint's error columns, then its marker is dropped, the tableau
is settled, and the references to its variables are given back. The constraint of an edit variable
takes the edit variable with it.
-/

namespace SoftSimplex
set_option autoImplicit false

variable {α : Type} [Scalar α]

namespace Tableau

def unweigh (t : Tableau α) (strength : α) (error : Symbol) : Tableau α :=
  { t with
    objective := match t.rows.get? error with
      | some row => t.objective.addRow row (-strength)
      | none => t.objective.addSymbol error (-strength) }

/-- Takes the weight of a constraint out of the objective. -/
def forget (t : Tableau α) (live : LiveConstraint α) : Tableau α :=
  live.tag.errors.foldl (fun t e => t.unweigh live.constraint.strength.value e) t

end Tableau

namespace Solver

/-- Ends the edit variable that a constraint belongs to. -/
def retireEdit (s : Solver α) (id : Nat) : Solver α :=
  { s with edits := s.edits.filter fun _ e => !(e.constraint.id == id) }

def removeConstraint (s : Solver α) (id : Nat) : Attempt SolverError Unit (Solver α) :=
  match s.constraints.get? id with
  | none => .failed .unknownConstraint s
  | some live =>
    let s := { s with
      constraints := s.constraints.erase id
      tableau := s.tableau.forget live }
    match s.tableau.dropMarker? live.tag.marker with
    | none => .failed (.breakdown .missingLeavingRow) s
    | some t =>
      match t.settle s.pivotLimit with
      | ⟨.error cause, t⟩ => .failed (.breakdown cause) (s.absorb t)
      | ⟨.ok _, t⟩ => .done () (((s.absorb t).release live.constraint).retireEdit id)

end Solver

end SoftSimplex
