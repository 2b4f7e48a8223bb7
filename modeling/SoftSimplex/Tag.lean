import SoftSimplex.Constraint
import SoftSimplex.Row

/-!
# The columns of a constraint

A constraint brings a marker column into the tableau and, unless it is required, a second one. With
them its expression becomes an equation `expression + Σ sign * column = 0`. An inequality is marked
by its slack, a required equation by a dummy, and any other equation by its two errors. The error
columns are what the objective weighs by the constraint's strength.
-/

namespace SoftSimplex
set_option autoImplicit false

structure Tag where
  marker : Symbol
  other : Option Symbol
  deriving DecidableEq, Repr

namespace Tag

variable {α : Type} [Scalar α]

/-- The columns of a constraint, numbered from `last + 1`. -/
def ofConstraint (c : Constraint α) (last : Nat) : Tag :=
  match c.relation, c.isRequired with
  | .equal, true => ⟨⟨.dummy, last + 1⟩, none⟩
  | .equal, false => ⟨⟨.error, last + 1⟩, some ⟨.error, last + 2⟩⟩
  | _, true => ⟨⟨.slack, last + 1⟩, none⟩
  | _, false => ⟨⟨.slack, last + 1⟩, some ⟨.error, last + 2⟩⟩

def symbols (tag : Tag) : List Symbol := tag.marker :: tag.other.toList

def errors (tag : Tag) : List Symbol := tag.symbols.filter Symbol.isError

/-- The coefficient of a constraint's marker in its equation; the other column has the opposite. -/
def markerSign (c : Constraint α) : α :=
  match c.relation with
  | .lessOrEqual => 1
  | .equal => if c.isRequired then 1 else -1
  | .greaterOrEqual => -1

/-- The columns of a constraint with their coefficients in its equation. -/
def cells (tag : Tag) (c : Constraint α) : List (Symbol × α) :=
  (tag.marker, markerSign c) :: tag.other.toList.map (·, -markerSign c)

end Tag

end SoftSimplex
