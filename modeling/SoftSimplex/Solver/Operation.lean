import SoftSimplex.Solver.Editing
import SoftSimplex.Solver.Publication

/-!
# Runs

The operations on a solver as data, and runs of them. A run goes on after a failure, with the solver
that the failed operation left behind.
-/

namespace SoftSimplex
set_option autoImplicit false

inductive Operation (α : Type) [Scalar α] where
  | addConstraint (c : Constraint α)
  | addConstraints (cs : List (Constraint α))
  | removeConstraint (id : Nat)
  | addEditVariable (v : Variable) (w : Strength α) (id : Nat)
  | removeEditVariable (v : Variable)
  | suggestValue (v : Variable) (x : α)
  | fetchChanges
  | nameVariable (v : Variable) (name : String)
  | reset

/-- The answer of an operation: a result, and for a fetch the changes. -/
structure Reply (α : Type) where
  result : Except SolverError Unit
  changes : List (Variable × α) := []

namespace Reply

def isBreakdown {α : Type} (r : Reply α) : Bool :=
  match r.result with
  | .error (.breakdown _) => true
  | _ => false

end Reply

namespace Solver

variable {α : Type} [Scalar α]

def answer (a : Attempt SolverError Unit (Solver α)) : Reply α × Solver α :=
  ({ result := a.result }, a.state)

def perform (s : Solver α) : Operation α → Reply α × Solver α
  | .addConstraint c => answer (s.addConstraint c)
  | .addConstraints cs => answer (s.addConstraints cs)
  | .removeConstraint id => answer (s.removeConstraint id)
  | .addEditVariable v w id => answer (s.addEditVariable v w id)
  | .removeEditVariable v => answer (s.removeEditVariable v)
  | .suggestValue v x => answer (s.suggestValue v x)
  | .fetchChanges => ({ result := .ok (), changes := s.fetchChanges.1 }, s.fetchChanges.2)
  | .nameVariable v name => ({ result := .ok () }, s.nameVariable v name)
  | .reset => ({ result := .ok () }, s.reset)

def run (s : Solver α) : List (Operation α) → List (Reply α) × Solver α
  | [] => ([], s)
  | op :: rest =>
    let (reply, s) := s.perform op
    let (replies, s) := s.run rest
    (reply :: replies, s)

end Solver

end SoftSimplex
