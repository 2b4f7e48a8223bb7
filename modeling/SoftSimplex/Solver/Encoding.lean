import SoftSimplex.Solver

/-!
# The row of a constraint

A constraint enters the tableau as a row that reads `0 = …` and mentions non-basic symbols only:
basic variables are replaced by their rows. A row whose constant would be negative is taken with the
opposite sign. The objective takes in the constraint's error columns at its strength.
-/

namespace SoftSimplex
set_option autoImplicit false

structure Draft (α : Type) where
  row : Row α
  tracked : VariableTable
  lastSymbol : Nat

variable {α : Type} [Scalar α]

namespace Draft

/-- Writes one term. A negligible term is left out and takes no reference. -/
def addTerm (rows : SymbolMap (Row α)) (d : Draft α) (term : Term α) : Draft α :=
  if Scalar.negligible term.coefficient then d
  else
    let (s, tracked, lastSymbol) := d.tracked.acquire term.var d.lastSymbol
    let row := match rows.get? s with
      | some basic => d.row.addRow basic term.coefficient
      | none => d.row.addSymbol s term.coefficient
    ⟨row, tracked, lastSymbol⟩

end Draft

inductive Placement where
  /-- The row is solved for this symbol. -/
  | basic (subject : Symbol)
  /-- The row asks a constant other than zero to be zero. -/
  | contradiction
  | phaseOne
  deriving DecidableEq, Repr

/-- The symbol that a new row can be solved for at once: a caller's variable, or a column of the
constraint itself that ends with a value of at least zero. -/
def subject? (row : Row α) (tag : Tag) : Option Symbol :=
  row.firstExternal? <|>
    tag.symbols.find? fun s => s.isPivotable && decide (row.coefficient s < 0)

def Placement.of (row : Row α) (tag : Tag) : Placement :=
  match subject? row tag with
  | some s => .basic s
  | none =>
    if row.isAllDummies then
      if Scalar.negligible row.constant then .basic tag.marker else .contradiction
    else .phaseOne

namespace Solver

def draft (s : Solver α) (c : Constraint α) : Draft α :=
  c.expression.terms.foldl (Draft.addTerm s.tableau.rows)
    ⟨⟨c.expression.constant, ∅⟩, s.tracked, s.lastSymbol⟩

/-- The row and the columns of a constraint, and the solver that has taken them in. -/
def encode (s : Solver α) (c : Constraint α) : Row α × Tag × Solver α :=
  let d := s.draft c
  let tag := Tag.ofConstraint c d.lastSymbol
  let row := (tag.cells c).foldl (fun r e => r.addSymbol e.1 e.2) d.row
  let objective :=
    tag.errors.foldl (fun r e => r.addSymbol e c.strength.value) s.tableau.objective
  (if row.constant < 0 then row.reverseSign else row, tag,
    { s with
      tracked := d.tracked
      lastSymbol := d.lastSymbol + tag.symbols.length
      tableau := { s.tableau with objective } })

/-- Takes back what encoding a refused constraint has done. -/
def discard (s : Solver α) (c : Constraint α) (tag : Tag) : Solver α :=
  let objective := tag.errors.foldl Row.remove s.tableau.objective
  release { s with tableau := { s.tableau with objective } } c

end Solver

end SoftSimplex
