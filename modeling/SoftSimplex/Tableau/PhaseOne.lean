import SoftSimplex.Tableau.Primal

/-!
# Insertion by a phase-one pass

A row with no symbol to solve for is made basic for a fresh slack symbol, and a copy of it is
minimised. The row can be satisfied exactly when the copy comes down to zero. Afterwards the fresh
symbol is pivoted out of the basis and struck from every row.
-/

namespace SoftSimplex
set_option autoImplicit false

namespace Tableau

variable {α : Type} [Scalar α]

def strike (t : Tableau α) (s : Symbol) : Tableau α :=
  { t with
    rows := t.rows.mapValues fun _ r => r.remove s
    objective := t.objective.remove s }

/-- Pivots the fresh symbol of a phase-one pass out of the basis and strikes it. The answer is the
verdict of the pass, or a refusal if the symbol's row has nothing to pivot on. -/
def retire (t : Tableau α) (fresh : Symbol) (verdict : Bool) : Bool × Tableau α :=
  match t.rows.get? fresh with
  | none => (verdict, t.strike fresh)
  | some row =>
    if row.isConstant then (verdict, t.eraseRow fresh)
    else match row.firstPivotable? with
      | none => (false, t.eraseRow fresh)
      | some entering => (verdict, (t.pivot fresh row entering).strike fresh)

/-- Whether the copy that a phase-one pass minimised has come down to zero. -/
def reachedZero (t : Tableau α) : Bool :=
  match t.artificial with
  | none => false
  | some row => Scalar.negligible row.constant

/-- Inserts a row that reads `0 = …`; the answer is whether it can be satisfied. -/
def insertArtificially (t : Tableau α) (limit : Nat) (fresh : Symbol) (row : Row α) :
    Attempt Breakdown Bool (Tableau α) :=
  let start := { t.insertRow fresh row with artificial := some row }
  match start.optimize .artificial limit with
  | ⟨.error cause, t⟩ => .failed cause { t with artificial := none }
  | ⟨.ok _, t⟩ =>
    let (satisfied, t) := retire { t with artificial := none } fresh t.reachedZero
    .done satisfied t

end Tableau

end SoftSimplex
