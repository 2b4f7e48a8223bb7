import SoftSimplex.Scalar
import SoftSimplex.SymbolMap

/-!
# Rows

A row is a constant and a coefficient for each of its columns, its cells. Read as a basic row it
says that a symbol equals `constant + Σ coefficient * symbol`. Adding to a row never leaves a
negligible coefficient behind: a cell that would hold one is dropped.
-/

namespace SoftSimplex
set_option autoImplicit false

structure Row (α : Type) where
  constant : α
  cells : SymbolMap α := ∅

namespace Row

variable {α : Type} [Scalar α]

instance : Inhabited (Row α) := ⟨⟨0, ∅⟩⟩

def coefficient (r : Row α) (s : Symbol) : α := (r.cells.get? s).getD 0

def addConstant (r : Row α) (v : α) : Row α := { r with constant := r.constant + v }

/-- What a cell holds after an addition: nothing if the sum is negligible. -/
def addToCell (k : α) (cell : Option α) : Option α :=
  let sum := match cell with
    | none => k
    | some c => c + k
  if Scalar.negligible sum then none else some sum

/-- Adds `k * s`. Adding exactly zero changes nothing. -/
def addSymbol (r : Row α) (s : Symbol) (k : α) : Row α :=
  if k == 0 then r else { r with cells := r.cells.alter s (addToCell k) }

/-- Adds `k * other`, cell by cell in column order. -/
def addRow (r other : Row α) (k : α) : Row α :=
  other.cells.entries.foldl (fun r e => r.addSymbol e.1 (e.2 * k))
    (r.addConstant (other.constant * k))

def movesConstant (other : Row α) (k : α) : Bool := !(other.constant * k == 0)

def remove (r : Row α) (s : Symbol) : Row α := { r with cells := r.cells.erase s }

def mapCoefficients (r : Row α) (f : α → α) : Row α :=
  ⟨f r.constant, r.cells.mapValues fun _ c => f c⟩

def reverseSign (r : Row α) : Row α := r.mapCoefficients (- ·)

def scale (r : Row α) (k : α) : Row α := r.mapCoefficients (· * k)

/-- Reads the row as `0 = constant + … + c * s` and solves it for `s`. A row without `s` stays. -/
def solveFor (r : Row α) (s : Symbol) : Row α :=
  match r.cells.get? s with
  | none => r
  | some c => (r.remove s).scale (-1 / c)

def exchange (r : Row α) (basic entering : Symbol) : Row α :=
  (r.addSymbol basic (-1)).solveFor entering

def substitute (r : Row α) (s : Symbol) (row : Row α) : Row α :=
  match r.cells.get? s with
  | none => r
  | some c => (r.remove s).addRow row c

def substituteMoves (r : Row α) (s : Symbol) (row : Row α) : Bool :=
  match r.cells.get? s with
  | none => false
  | some c => row.movesConstant c

def isConstant (r : Row α) : Bool := r.cells.isEmpty

def isAllDummies (r : Row α) : Bool := r.cells.keys.all Symbol.isDummy

def firstPivotable? (r : Row α) : Option Symbol := r.cells.keys.find? Symbol.isPivotable

def firstExternal? (r : Row α) : Option Symbol := r.cells.keys.find? Symbol.isExternal

end Row

end SoftSimplex
