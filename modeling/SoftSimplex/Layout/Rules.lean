import SoftSimplex.IdSupply
import SoftSimplex.Layout.Frames
import SoftSimplex.Solver.Editing
import SoftSimplex.Solver.Publication

/-!
# Rules of a layout

A rule relates two expressions at a strength. The rules of a layout become constraints in the order
in which they are written. A layout fails with the first failure of its solver.
-/

namespace SoftSimplex.Layout
set_option autoImplicit false

structure Rule (α : Type) where
  left : Expression α
  relation : Relation
  right : Expression α
  strength : Strength α

variable {α : Type} [Scalar α]

def Rule.toConstraint (r : Rule α) (id : Nat) : Constraint α :=
  .between id r.left r.relation r.right r.strength

def Rule.fixed (v : Variable) (x : α) : Rule α :=
  ⟨.ofVariable v, .equal, .ofConstant x, .required⟩

def Rule.atLeast (v : Variable) (x : α) : Rule α :=
  ⟨.ofVariable v, .greaterOrEqual, .ofConstant x, .required⟩

/-- The state left by an attempt, unless it failed. -/
def reached {β σ : Type} (a : Attempt SolverError β σ) : Except LayoutError σ :=
  match a.result with
  | .ok _ => .ok a.state
  | .error cause => .error (.solver cause)

/-- Adds the rules to a solver and makes a variable an edit variable of strong strength. -/
def build (s : Solver α) (rules : List (Rule α)) (edited : Variable) (supply : IdSupply) :
    Except LayoutError (Solver α) := do
  let (ids, supply) := supply.freshConstraints rules.length
  let s ← reached (s.addConstraints (List.zipWith Rule.toConstraint rules ids))
  reached (s.addEditVariable edited .strong supply.freshConstraint.1)

end SoftSimplex.Layout
