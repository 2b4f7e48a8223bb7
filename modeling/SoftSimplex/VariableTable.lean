import SoftSimplex.Registry
import SoftSimplex.SymbolMap
import SoftSimplex.Variable

/-!
# Tracked variables

A variable is tracked while live constraints mention it. The table holds its external symbol and
counts the mentions; a second index leads from a symbol back to its variable.
-/

namespace SoftSimplex
set_option autoImplicit false

structure TrackedVariable where
  symbol : Symbol
  references : Nat
  deriving DecidableEq, Repr

structure VariableTable where
  records : Registry Variable TrackedVariable := ∅
  owners : SymbolMap Variable := ∅

namespace VariableTable

def isTracked (table : VariableTable) (v : Variable) : Bool := table.records.contains v

/-- Takes one reference to a variable. A variable that is not tracked gets the next symbol after
`last`; the answer ends with the last symbol then in use. -/
def acquire (table : VariableTable) (v : Variable) (last : Nat) : Symbol × VariableTable × Nat :=
  match table.records.get? v with
  | some r =>
    let records := table.records.insert v { r with references := r.references + 1 }
    (r.symbol, { table with records }, last)
  | none =>
    let s : Symbol := ⟨.external, last + 1⟩
    (s, ⟨table.records.insert v ⟨s, 1⟩, table.owners.insert s v⟩, last + 1)

/-- Gives one reference back; the answer says whether it was the last one. -/
def release (table : VariableTable) (v : Variable) : Bool × VariableTable :=
  match table.records.get? v with
  | none => (false, table)
  | some r =>
    let left := r.references - 1
    if 0 < left then
      (false, { table with records := table.records.insert v { r with references := left } })
    else (true, ⟨table.records.erase v, table.owners.erase r.symbol⟩)

end VariableTable

end SoftSimplex
