import SoftSimplex.Solver.Encoding
import SoftSimplex.Tableau.Dual
import SoftSimplex.Tableau.PhaseOne

/-!
# Adding a constraint

The row of a new constraint is solved for one of its symbols, or inserted by a phase-one pass, and
the tableau is settled. A constraint that is refused, or whose phase-one pass breaks down, leaves
rows, objective, queue and references as they were.
-/

namespace SoftSimplex
set_option autoImplicit false

namespace Solver

variable {α : Type} [Scalar α]

/-- Registers a constraint whose row is in the tableau, and settles. -/
def accept (s : Solver α) (c : Constraint α) (tag : Tag) : Attempt SolverError Tag (Solver α) :=
  let s := { s with constraints := s.constraints.insert c.id ⟨c, tag⟩ }
  match s.tableau.settle s.pivotLimit with
  | ⟨.ok _, t⟩ => .done tag (s.absorb t)
  | ⟨.error cause, t⟩ => .failed (.breakdown cause) (s.absorb t)

/-- Keeps the notes of a failed phase-one pass and nothing else of it. -/
def rollBack (s : Solver α) (t : Tableau α) : Solver α :=
  s.absorb { s.tableau with artificial := none, touched := t.touched }

def insertByPhaseOne (s : Solver α) (c : Constraint α) (tag : Tag) (row : Row α) :
    Attempt SolverError Tag (Solver α) :=
  let fresh : Symbol := ⟨.slack, s.lastSymbol + 1⟩
  let s := { s with lastSymbol := s.lastSymbol + 1 }
  match s.tableau.insertArtificially s.pivotLimit fresh row with
  | ⟨.ok true, t⟩ => (s.absorb t).accept c tag
  | ⟨.ok false, t⟩ => .failed .unsatisfiableConstraint ((s.rollBack t).discard c tag)
  | ⟨.error cause, t⟩ => .failed (.breakdown cause) ((s.rollBack t).discard c tag)

def insertConstraint (s : Solver α) (c : Constraint α) : Attempt SolverError Tag (Solver α) :=
  if s.hasConstraint c.id then .failed .duplicateConstraint s
  else
    let (row, tag, s) := s.encode c
    match Placement.of row tag with
    | .basic subject => (s.absorb (s.tableau.install row subject)).accept c tag
    | .contradiction => .failed .unsatisfiableConstraint (s.discard c tag)
    | .phaseOne => s.insertByPhaseOne c tag row

def addConstraint (s : Solver α) (c : Constraint α) : Attempt SolverError Unit (Solver α) :=
  let a := s.insertConstraint c
  ⟨a.result.map fun _ => (), a.state⟩

/-- Adds constraints in turn, up to the first that fails. -/
def addConstraints (s : Solver α) : List (Constraint α) → Attempt SolverError Unit (Solver α)
  | [] => .done () s
  | c :: rest =>
    match s.addConstraint c with
    | ⟨.ok _, s⟩ => s.addConstraints rest
    | failed => failed

end Solver

end SoftSimplex
