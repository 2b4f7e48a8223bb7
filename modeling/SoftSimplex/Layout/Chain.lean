import SoftSimplex.Layout.Rules

/-!
# The chain

Three variables: a left end at zero, a right end, and the width between them, which is not negative
and follows a suggestion.
-/

namespace SoftSimplex.Layout
set_option autoImplicit false

variable {α : Type} [Scalar α]

structure ChainValues (α : Type) where
  left : α
  width : α
  right : α

def chainRules (left width right : Variable) : List (Rule α) :=
  [⟨.ofVariable right, .equal, (Expression.ofVariable left).add (.ofVariable width), .required⟩,
    .fixed left 0,
    .atLeast width 0]

def chain (suggested : α) : Except LayoutError (ChainValues α) := do
  let (left, supply) := ({} : IdSupply).freshVariable
  let (width, supply) := supply.freshVariable
  let (right, supply) := supply.freshVariable
  let s ← build .empty (chainRules left width right) width supply
  let s ← reached (s.suggestValue width suggested)
  let (_, s) := s.fetchChanges
  return ⟨s.getValue left, s.getValue width, s.getValue right⟩

end SoftSimplex.Layout
