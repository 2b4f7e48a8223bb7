import SoftSimplex.Solver.Insertion
import SoftSimplex.Solver.Removal
import SoftSimplex.Tableau.EditShift

/-!
# Edit variables

An edit variable is held to its last suggested value, at first zero, by a constraint of its own that
is not required. Suggesting a value moves the constant of that constraint and repairs the tableau.
-/

namespace SoftSimplex
set_option autoImplicit false

namespace Solver

variable {α : Type} [Scalar α]

/-- Why a variable cannot become an edit variable at a strength. -/
def editRefusal? (s : Solver α) (v : Variable) (w : Strength α) : Option SolverError :=
  if s.hasEditVariable v then some .duplicateEditVariable
  else if w.isRequired then some .badRequiredStrength
  else none

def addEditVariable (s : Solver α) (v : Variable) (w : Strength α) (id : Nat) :
    Attempt SolverError Unit (Solver α) :=
  match s.editRefusal? v w with
  | some e => .failed e s
  | none =>
    let c := Constraint.make id (.ofVariable v) .equal w
    match s.insertConstraint c with
    | ⟨.ok tag, s⟩ => .done () { s with edits := s.edits.insert v ⟨tag, c, 0⟩ }
    | ⟨.error (.breakdown cause), s⟩ => .failed (.breakdown cause) s
    | ⟨.error _, s⟩ => .failed (.breakdown .editConstraintRejected) s

def removeEditVariable (s : Solver α) (v : Variable) : Attempt SolverError Unit (Solver α) :=
  match s.edits.get? v with
  | none => .failed .unknownEditVariable s
  | some edit =>
    match { s with edits := s.edits.erase v }.removeConstraint edit.constraint.id with
    | ⟨.error .unknownConstraint, s⟩ => .done () s
    | attempt => attempt

def suggestValue (s : Solver α) (v : Variable) (x : α) : Attempt SolverError Unit (Solver α) :=
  match s.edits.get? v with
  | none => .failed .unknownEditVariable s
  | some edit =>
    if !Scalar.isFinite x then .failed .nonFiniteValue s
    else
      let delta := x - edit.value
      let s := { s with edits := s.edits.insert v { edit with value := x } }
      if delta == 0 then .done () s
      else
        match (s.tableau.shiftEdit edit.tag delta).dualOptimize s.pivotLimit with
        | ⟨.ok _, t⟩ => .done () (s.absorb t)
        | ⟨.error cause, t⟩ => .failed (.breakdown cause) (s.absorb t)

end Solver

end SoftSimplex
