import SoftSimplex.Proofs.SolverRuns

/-!
# What the objective weighs

At every solution of the tableau the objective shows, up to one constant, the errors of the live
constraints that need not hold, weighed by their strengths. Errors enter the objective bare and are
pivoted into other columns later. Where they are taken out again they are read off the rows, so the
weight that leaves is the weight that came in.
-/

namespace SoftSimplex.Solver
set_option autoImplicit false

variable {issued : Set Symbol} {s : Solver Rat}

/-- The errors of the live constraints that need not hold, weighed by their strengths. -/
def optionalErrorCost (s : Solver Rat) (a : Nat → Rat) : Rat :=
  ((s.constraints.values.filter fun l => !l.constraint.isRequired).map fun l =>
    l.constraint.strength.value * l.tag.errorSum a).sum

/-- A required constraint has no errors, so it adds nothing. -/
theorem errorCost_eq_optional (h : s.Ledger issued) (a : Nat → Rat) :
    s.errorCost a = s.optionalErrorCost a := by
  have hMarks := h.marks
  rw [errorCost, optionalErrorCost]
  generalize s.constraints.values = lives at hMarks
  induction lives with
  | nil => rfl
  | cons l rest ih =>
    have hRest := ih fun k hk => hMarks k (List.mem_cons_of_mem _ hk)
    rw [List.map_cons, List.sum_cons, hRest]
    cases hRequired : l.constraint.isRequired with
    | true =>
      have hErrors := (hMarks l List.mem_cons_self).errors_of_required hRequired
      simp [hRequired, Tag.errorSum, hErrors]
    | false => simp [hRequired]

theorem Sound.objective_value (h : s.Sound issued) : ∃ k, ∀ a, s.tableau.Satisfies a →
    s.tableau.objective.value a = k + s.optionalErrorCost a := by
  obtain ⟨k, hk⟩ := h.meaning.objective
  refine ⟨k, fun a hSat => ?_⟩
  rw [hk a hSat, errorCost_eq_optional h.ledger]

end SoftSimplex.Solver
