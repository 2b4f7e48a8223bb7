import SoftSimplex.Scalar

/-!
# The ratio test

From a list of candidates, each with a ratio, the test takes the least ratio. The first of equal
ratios wins, and a ratio that is not below infinity never does.
-/

namespace SoftSimplex
set_option autoImplicit false

namespace LeastRatio

variable {α β : Type} [Scalar α]

/-- The bound that the next ratio must go below, and the candidate that set it. -/
structure Best (α β : Type) where
  bound : Option α
  choice : Option β

def improves (bound : Option α) (ratio : α) : Bool :=
  match bound with
  | none => true
  | some b => decide (ratio < b)

def offer (best : Best α β) (candidate : β × α) : Best α β :=
  if improves best.bound candidate.2 then ⟨some candidate.2, some candidate.1⟩ else best

def choose (candidates : List (β × α)) : Option β :=
  (candidates.foldl offer ⟨Scalar.infinity, none⟩).choice

end LeastRatio

end SoftSimplex
