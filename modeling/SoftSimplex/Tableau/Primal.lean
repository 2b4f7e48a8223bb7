import SoftSimplex.Attempt
import SoftSimplex.LeastRatio
import SoftSimplex.SolverError
import SoftSimplex.Tableau

/-!
# The primal pass

As long as an objective has a negative coefficient, the first such column enters the basis, and the
restricted row that limits it most leaves. Dummy columns never enter, and ties between rows go to
the lowest column. The pass gives up when its budget of pivots is spent.
-/

namespace SoftSimplex
set_option autoImplicit false

namespace Tableau

variable {α : Type} [Scalar α]

def enteringFor? (objective : Row α) : Option Symbol :=
  (objective.cells.entries.find? fun e => decide (e.2 < 0) && !e.1.isDummy).map Prod.fst

def entering? (t : Tableau α) (goal : Goal) : Option Symbol :=
  (t.objectiveFor? goal).bind enteringFor?

/-- The restricted rows that bound `entering` from above, with the bounds. -/
def upperBounds (t : Tableau α) (entering : Symbol) : List ((Symbol × Row α) × α) :=
  t.rows.entries.filterMap fun e =>
    let c := e.2.coefficient entering
    if !e.1.isExternal && decide (c < 0) then some (e, -e.2.constant / c) else none

def leavingRow? (t : Tableau α) (entering : Symbol) : Option (Symbol × Row α) :=
  LeastRatio.choose (t.upperBounds entering)

/-- Minimises the goal's objective in at most `budget` more pivots; `limit` is the budget of the
whole pass. -/
def optimizeWithin (goal : Goal) (limit : Nat) (budget : Nat) (t : Tableau α) :
    Attempt Breakdown Unit (Tableau α) :=
  match t.entering? goal with
  | none => .done () t
  | some entering =>
    match budget with
    | 0 => .failed (.iterationLimitExceeded limit) t
    | left + 1 =>
      match t.leavingRow? entering with
      | none => .failed .objectiveUnbounded t
      | some (leaving, row) => optimizeWithin goal limit left (t.pivot leaving row entering)

def optimize (t : Tableau α) (goal : Goal) (limit : Nat) : Attempt Breakdown Unit (Tableau α) :=
  optimizeWithin goal limit limit t

end Tableau

end SoftSimplex
