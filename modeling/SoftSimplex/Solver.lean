import SoftSimplex.ChangeLog
import SoftSimplex.Tableau
import SoftSimplex.Tag
import SoftSimplex.VariableTable

/-!
# The solver

The solver keeps its live constraints in order of addition, the edit variables with their last
suggested values, the tracked variables, and the tableau that solves them. Values are published:
what a caller reads is what the last fetch handed out. A pass over the tableau notes the external
symbols that it touched; absorbing the tableau sends these notes to the change log.
-/

namespace SoftSimplex
set_option autoImplicit false

structure LiveConstraint (α : Type) [Scalar α] where
  constraint : Constraint α
  tag : Tag

structure Edit (α : Type) [Scalar α] where
  tag : Tag
  constraint : Constraint α
  /-- The last suggested value. -/
  value : α

structure Solver (α : Type) [Scalar α] where
  constraints : Registry Nat (LiveConstraint α) := ∅
  edits : Registry Variable (Edit α) := ∅
  tracked : VariableTable := {}
  /-- The values handed out by the last fetch. -/
  published : Registry Variable α := ∅
  names : Registry Variable String := ∅
  changes : ChangeLog := {}
  tableau : Tableau α
  /-- The number of the newest column. -/
  lastSymbol : Nat := 0
  /-- How many pivots one pass may take. -/
  pivotLimit : Nat := 10000

namespace Solver

variable {α : Type} [Scalar α]

def empty : Solver α := { tableau := .empty }

instance : Inhabited (Solver α) := ⟨empty⟩

def withPivotLimit (limit : Nat) : Solver α := { (empty : Solver α) with pivotLimit := limit }

def hasConstraint (s : Solver α) (id : Nat) : Bool := s.constraints.contains id

theorem get?_of_not_hasConstraint {s : Solver α} {id : Nat} (h : s.hasConstraint id = false) :
    s.constraints.get? id = none := by
  simpa [hasConstraint, Registry.contains] using h

/-- The live constraints in order of addition. -/
def constraintList (s : Solver α) : List (Constraint α) :=
  s.constraints.values.map LiveConstraint.constraint

def hasEditVariable (s : Solver α) (v : Variable) : Bool := s.edits.contains v

/-- The edit variables in order of registration. -/
def editVariables (s : Solver α) : List Variable := s.edits.keys

/-- The variables behind the symbols that a tableau has noted, in the order of the notes. -/
def touchedVariables (s : Solver α) (t : Tableau α) : List Variable :=
  t.touched.reverse.filterMap s.tracked.owners.get?

/-- Takes a tableau over and moves its notes to the change log. -/
def absorb (s : Solver α) (t : Tableau α) : Solver α :=
  { s with
    tableau := { t with touched := [] }
    changes := s.changes.markAll (s.touchedVariables t) }

def releaseTerm (s : Solver α) (term : Term α) : Solver α :=
  if Scalar.negligible term.coefficient then s
  else
    let (dropped, tracked) := s.tracked.release term.var
    { s with
      tracked
      changes := if dropped then s.changes.mark term.var else s.changes }

def release (s : Solver α) (c : Constraint α) : Solver α :=
  c.expression.terms.foldl releaseTerm s

/-- Drops everything but the pivot limit. -/
def reset (s : Solver α) : Solver α := withPivotLimit s.pivotLimit

end Solver

end SoftSimplex
