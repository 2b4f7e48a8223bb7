import SoftSimplex.Evaluation
import SoftSimplex.Solver

/-!
# What a solver asks for

A relation holds of a value or is violated by an amount. A solver asks an assignment to satisfy its
required constraints and, among those that do, to have the least cost: the violations of the other
constraints, weighed by their strengths. The constraint of an edit variable is measured from the
last suggested value.
-/

namespace SoftSimplex
set_option autoImplicit false

variable {α : Type} [Scalar α]

namespace Relation

/-- Whether a value stands in the relation to zero. -/
def Holds (relation : Relation) (x : α) : Prop :=
  match relation with
  | .lessOrEqual => x ≤ 0
  | .equal => x = 0
  | .greaterOrEqual => 0 ≤ x

def excess (x : α) : α := if 0 < x then x else 0

/-- How far a value is from standing in the relation to zero. -/
def violation (relation : Relation) (x : α) : α :=
  match relation with
  | .lessOrEqual => excess x
  | .equal => excess x + excess (-x)
  | .greaterOrEqual => excess (-x)

end Relation

def Tableau.Satisfies (t : Tableau α) (a : Nat → α) : Prop :=
  ∀ e ∈ t.rows.entries, a e.1.id = e.2.value a

namespace Solver

/-- The last suggestion for the edit variable that a constraint belongs to, zero for any other
constraint. -/
def target (s : Solver α) (id : Nat) : α :=
  match s.edits.values.find? fun e => e.constraint.id == id with
  | none => 0
  | some e => e.value

/-- What a live constraint relates to zero. -/
def residual (s : Solver α) (a : Variable → α) (c : Constraint α) : α :=
  c.expression.value a - s.target c.id

def Feasible (s : Solver α) (a : Variable → α) : Prop :=
  ∀ c ∈ s.constraintList, c.isRequired = true → c.relation.Holds (s.residual a c)

def penalty (s : Solver α) (a : Variable → α) (c : Constraint α) : α :=
  c.strength.value * c.relation.violation (s.residual a c)

def cost (s : Solver α) (a : Variable → α) : α :=
  ((s.constraintList.filter fun c => !c.isRequired).map (s.penalty a)).sum

end Solver

end SoftSimplex
