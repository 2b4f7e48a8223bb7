import SoftSimplex.Row

/-!
# The tableau

The tableau keeps one row for each basic symbol, an objective row to be minimised, and, while a row
is being inserted by a phase-one pass, that pass's own objective. External symbols are free; every
other symbol is restricted to values of at least zero. Restricted rows whose constant has gone
below zero wait in a queue, and external symbols whose value may have moved are noted.
-/

namespace SoftSimplex
set_option autoImplicit false

structure Tableau (α : Type) where
  rows : SymbolMap (Row α) := ∅
  objective : Row α
  /-- The objective of a phase-one pass. -/
  artificial : Option (Row α) := none
  /-- Basic symbols whose rows may have to be repaired, the latest first. -/
  infeasible : List Symbol := []
  /-- External symbols whose value may have moved, the latest first. -/
  touched : List Symbol := []

inductive Goal where
  | primary
  | artificial
  deriving DecidableEq, Repr

namespace Tableau

variable {α : Type} [Scalar α]

def empty : Tableau α := { objective := ⟨0, ∅⟩ }

instance : Inhabited (Tableau α) := ⟨empty⟩

def objectiveFor? (t : Tableau α) : Goal → Option (Row α)
  | .primary => some t.objective
  | .artificial => t.artificial

def insertRow (t : Tableau α) (basic : Symbol) (row : Row α) : Tableau α :=
  { t with rows := t.rows.insert basic row }

def eraseRow (t : Tableau α) (basic : Symbol) : Tableau α :=
  { t with rows := t.rows.erase basic }

def touch (t : Tableau α) (s : Symbol) : Tableau α :=
  if s.isExternal then { t with touched := s :: t.touched } else t

/-- The restricted rows whose constant is below zero, in column order. -/
def negativeRestricted (rows : SymbolMap (Row α)) : List Symbol :=
  rows.entries.filterMap fun e =>
    if !e.1.isExternal && decide (e.2.constant < 0) then some e.1 else none

/-- The external rows whose constant moves when `s` is replaced by a row. -/
def movedExternal (rows : SymbolMap (Row α)) (s : Symbol) (row : Row α) : List Symbol :=
  rows.entries.filterMap fun e =>
    if e.1.isExternal && e.2.substituteMoves s row then some e.1 else none

def substitute (t : Tableau α) (s : Symbol) (row : Row α) : Tableau α :=
  let rows := t.rows.mapValues fun _ r => r.substitute s row
  { rows
    objective := t.objective.substitute s row
    artificial := t.artificial.map (·.substitute s row)
    infeasible := (negativeRestricted rows).reverse ++ t.infeasible
    touched := (movedExternal t.rows s row).reverse ++ t.touched }

/-- Takes the row of `leaving` out and uses it to replace `entering` everywhere else. -/
def eliminate (t : Tableau α) (leaving : Symbol) (row : Row α) (entering : Symbol) : Tableau α :=
  ((t.eraseRow leaving).substitute entering (row.exchange leaving entering)).touch leaving

def pivot (t : Tableau α) (leaving : Symbol) (row : Row α) (entering : Symbol) : Tableau α :=
  ((t.eliminate leaving row entering).touch entering).insertRow entering
    (row.exchange leaving entering)

/-- Adds a row that reads `0 = …` by solving it for one of its symbols. -/
def install (t : Tableau α) (row : Row α) (subject : Symbol) : Tableau α :=
  ((t.substitute subject (row.solveFor subject)).touch subject).insertRow subject
    (row.solveFor subject)

/-- The value of a symbol: the constant of its row, or zero where it has none. -/
def value (t : Tableau α) (s : Symbol) : α :=
  match t.rows.get? s with
  | none => 0
  | some row => row.constant

end Tableau

end SoftSimplex
