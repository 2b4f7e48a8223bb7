import SoftSimplex.Constraint

/-!
# Supplies of numbers

Variables and constraints are numbered from one, each kind by itself. Solvers that share variables
or constraints draw their numbers from one supply.
-/

namespace SoftSimplex
set_option autoImplicit false

structure IdSupply where
  nextVariable : Nat := 1
  nextConstraint : Nat := 1

namespace IdSupply

def freshVariable (supply : IdSupply) : Variable × IdSupply :=
  (⟨supply.nextVariable⟩, { supply with nextVariable := supply.nextVariable + 1 })

def freshVariables (supply : IdSupply) (n : Nat) : List Variable × IdSupply :=
  ((List.range n).map fun i => ⟨supply.nextVariable + i⟩,
    { supply with nextVariable := supply.nextVariable + n })

def freshConstraint (supply : IdSupply) : Nat × IdSupply :=
  (supply.nextConstraint, { supply with nextConstraint := supply.nextConstraint + 1 })

def freshConstraints (supply : IdSupply) (n : Nat) : List Nat × IdSupply :=
  ((List.range n).map (supply.nextConstraint + ·),
    { supply with nextConstraint := supply.nextConstraint + n })

end IdSupply

end SoftSimplex
