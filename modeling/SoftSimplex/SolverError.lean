/-!
# Failures

A recoverable failure refuses one operation. A breakdown is a failure of the simplex passes
themselves.
-/

namespace SoftSimplex
set_option autoImplicit false

inductive Breakdown where
  | objectiveUnbounded
  /-- A row that must grow has no column that may enter. -/
  | dualOptimizeFailed
  /-- The marker of a removed constraint is in no row. -/
  | missingLeavingRow
  | iterationLimitExceeded (limit : Nat)
  | editConstraintRejected
  deriving DecidableEq, Repr

inductive SolverError where
  | duplicateConstraint
  | unsatisfiableConstraint
  | unknownConstraint
  | duplicateEditVariable
  | badRequiredStrength
  | unknownEditVariable
  | nonFiniteValue
  | breakdown (cause : Breakdown)
  deriving DecidableEq, Repr

def Breakdown.message : Breakdown → String
  | .objectiveUnbounded => "the objective is unbounded"
  | .dualOptimizeFailed => "dual optimization found no entering symbol"
  | .missingLeavingRow => "failed to find a leaving row for the constraint marker"
  | .iterationLimitExceeded limit =>
    "exceeded the limit of " ++ toString limit ++ " pivots in a single optimization"
  | .editConstraintRejected => "the solver rejected a synthesized edit constraint"

def SolverError.message : SolverError → String
  | .duplicateConstraint => "the constraint has already been added to the solver"
  | .unsatisfiableConstraint => "the required constraint cannot be satisfied"
  | .unknownConstraint => "the constraint has not been added to the solver"
  | .duplicateEditVariable => "the variable is already an edit variable"
  | .badRequiredStrength => "an edit variable cannot have required strength"
  | .unknownEditVariable => "the variable is not an edit variable"
  | .nonFiniteValue => "the suggested value is not a finite number"
  | .breakdown cause => "internal solver error: " ++ cause.message

end SoftSimplex
