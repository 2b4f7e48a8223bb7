import SoftSimplex.Solver

/-!
# Published values

A fetch publishes the solved values of the variables in the change log and reports those whose
published value is thereby another. Between two fetches the published values stand still. A
variable without a published value counts as zero.
-/

namespace SoftSimplex
set_option autoImplicit false

namespace Solver

variable {α : Type} [Scalar α]

def solvedValue (s : Solver α) (v : Variable) : α :=
  match s.tracked.records.get? v with
  | none => 0
  | some r => s.tableau.value r.symbol

def getValue (s : Solver α) (v : Variable) : α := (s.published.get? v).getD 0

/-- Publishes one value. The zero of a variable that is not tracked is not kept. -/
def publish (s : Solver α) (published : Registry Variable α) (change : Variable × α) :
    Registry Variable α :=
  if change.2 == 0 && !s.tracked.isTracked change.1 then published.erase change.1
  else published.insert change.1 change.2

/-- The changes since the last fetch, in the order of the change log. Adding zero to a solved value
gives a zero without a sign. -/
def fetchChanges (s : Solver α) : List (Variable × α) × Solver α :=
  let (marked, changes) := s.changes.close
  let current := marked.map fun v => (v, s.solvedValue v + 0)
  (current.filter fun c => !(c.2 == s.getValue c.1),
    { s with changes, published := current.foldl s.publish s.published })

def nameVariable (s : Solver α) (v : Variable) (name : String) : Solver α :=
  { s with names := s.names.insert v name }

def variableName? (s : Solver α) (v : Variable) : Option String := s.names.get? v

end Solver

end SoftSimplex
