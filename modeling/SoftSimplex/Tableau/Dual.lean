import SoftSimplex.Tableau.Primal

/-!
# The dual pass

The dual pass repairs the rows of the queue, the latest first, and keeps the objective optimal.
Entries that are no longer basic, or whose constant is no longer below zero by more than a
negligible amount, are dropped. In a row to be repaired the entering column is the one with the
least ratio of objective to row coefficient among the positive cells that are not dummies.
-/

namespace SoftSimplex
set_option autoImplicit false

namespace Tableau

variable {α : Type} [Scalar α]

def needsRepair (row : Row α) : Bool :=
  decide (row.constant < 0) && !Scalar.negligible row.constant

/-- The first entry of a queue that needs repair, its row, and the queue behind it. -/
def nextViolated? (rows : SymbolMap (Row α)) :
    List Symbol → Option (Symbol × Row α × List Symbol)
  | [] => none
  | s :: rest =>
    match rows.get? s with
    | none => nextViolated? rows rest
    | some row => if needsRepair row then some (s, row, rest) else nextViolated? rows rest

def dualRatios (t : Tableau α) (row : Row α) : List (Symbol × α) :=
  row.cells.entries.filterMap fun e =>
    if decide (0 < e.2) && !e.1.isDummy then some (e.1, t.objective.coefficient e.1 / e.2) else none

def dualEntering? (t : Tableau α) (row : Row α) : Option Symbol :=
  LeastRatio.choose (t.dualRatios row)

/-- Repairs the queue in at most `budget` more pivots; `limit` is the budget of the whole pass. -/
def dualOptimizeWithin (limit : Nat) (budget : Nat) (t : Tableau α) :
    Attempt Breakdown Unit (Tableau α) :=
  match nextViolated? t.rows t.infeasible with
  | none => .done () { t with infeasible := [] }
  | some (leaving, row, rest) =>
    let popped := { t with infeasible := rest }
    match popped.dualEntering? row with
    | none => .failed .dualOptimizeFailed popped
    | some entering =>
      match budget with
      | 0 => .failed (.iterationLimitExceeded limit) popped
      | left + 1 => dualOptimizeWithin limit left (popped.pivot leaving row entering)

def dualOptimize (t : Tableau α) (limit : Nat) : Attempt Breakdown Unit (Tableau α) :=
  dualOptimizeWithin limit limit t

/-- Minimises the objective and then repairs what is queued. -/
def settle (t : Tableau α) (limit : Nat) : Attempt Breakdown Unit (Tableau α) :=
  match t.optimize .primary limit with
  | ⟨.ok _, t⟩ => t.dualOptimize limit
  | broken => broken

end Tableau

end SoftSimplex
