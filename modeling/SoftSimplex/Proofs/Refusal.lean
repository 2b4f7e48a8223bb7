import SoftSimplex.Proofs.Optimality

/-!
# Refusals are exact

Columns that satisfy a new required constraint with all that is required before make its row zero, so
no such assignment exists for a constraint that is refused. An accepted one holds at the solved
values.
-/

namespace SoftSimplex
set_option autoImplicit false

namespace Solver

variable {issued : Set Symbol} {s next : Solver Rat} {c : Constraint Rat} {tag : Tag}
  {x : Variable → Rat}

section NewConstraint

variable (hNew : s.constraints.get? c.id = none)
include hNew

theorem Ledger.feasible_insert_iff (h : s.Ledger issued)
    (hConstraints : next.constraints = s.constraints.insert c.id ⟨c, tag⟩)
    (hEdits : next.edits = s.edits) : next.Feasible x ↔
      s.Feasible x ∧ (c.isRequired = true → c.relation.Holds (c.expression.value x)) := by
  have hResidual : ∀ k, next.residual x k = s.residual x k := fun k => by
    rw [residual, target_congr hEdits, residual]
  have hOwn : s.residual x c = c.expression.value x := by
    rw [residual, h.target_of_not_live hNew, sub_zero]
  rw [Feasible, constraintList_insert hNew hConstraints, List.forall_mem_append,
    List.forall_mem_singleton, hResidual c, hOwn, Feasible]
  simp only [hResidual]

theorem Impossible.not_holds (hImpossible : Impossible issued s c) (h : s.Sound issued)
    (hFeasible : s.Feasible x) : ¬ c.relation.Holds (c.expression.value x) := by
  intro hHolds
  obtain ⟨more, row, tag, next, hMore, hCode, hNonzero⟩ := hImpossible
  have hBoth : (next.register c tag).Feasible x := by
    have hConstraints : (next.register c tag).constraints = s.constraints.insert c.id ⟨c, tag⟩ := by
      rw [register, hCode.constraints]
    exact (h.ledger.feasible_insert_iff hNew hConstraints hCode.edits).mpr
      ⟨hFeasible, fun _ => hHolds⟩
  have hBooks := ledger_register hCode h hMore hNew
  obtain ⟨a, ha⟩ := hBooks.exists_completes hBoth
  have hEquations := fun l => hBooks.equation_completes ha (l := l)
  rw [values_register hCode hNew, List.forall_mem_append, List.forall_mem_singleton] at hEquations
  obtain ⟨hOthers, hOwn⟩ := hEquations
  have hSatisfies : s.tableau.Satisfies a := (h.meaning.rows a).mpr fun l hl => by
    rw [← equation_register hCode h.ledger hl]
    exact hOthers l hl
  obtain ⟨σ, _, hValue, _⟩ := hCode.equation
  refine hNonzero a hSatisfies (hBooks.admissible_completes ha) ?_
  rw [hValue a hSatisfies, ← equation_register_self hCode h hNew a, hOwn, mul_zero]

theorem Accepted.exists_feasible (hRequired : c.isRequired = true)
    (hAccepted : Accepted issued s c tag next) {before : Set Symbol} (h : s.Sound before)
    (hPinned : s.tableau.Pinned) :
    ∃ x, s.Feasible x ∧ c.relation.Holds (c.expression.value x) := by
  obtain ⟨hFeasible, hHolds⟩ := (h.ledger.feasible_insert_iff hNew hAccepted.constraints
    hAccepted.edits).mp (hAccepted.sound.feasible_solved (hAccepted.pinned hPinned))
  exact ⟨next.solvedValue, hFeasible, hHolds hRequired⟩

end NewConstraint

/-- After every run that neither breaks down nor removes an equation that must hold, a new required
constraint is refused if nothing satisfies it together with the required ones, and is accepted
otherwise, unless the attempt itself breaks down. -/
theorem refused_iff_unsatisfiable_of_run (limit : Nat) (ops : List (Operation Rat))
    (hOk : (withPivotLimit limit : Solver Rat).RunsThrough ops)
    (hKeeps : (withPivotLimit limit : Solver Rat).KeepsEquations ops) (c : Constraint Rat)
    (hRequired : c.isRequired = true) (hNew : (reached limit ops).hasConstraint c.id = false)
    (hThrough : ((reached limit ops).perform (.addConstraint c)).1.isBreakdown = false) :
    (((reached limit ops).addConstraint c).result = .error .unsatisfiableConstraint ↔
      ¬ ∃ x, (reached limit ops).Feasible x ∧ c.relation.Holds (c.expression.value x)) ∧
    (((reached limit ops).addConstraint c).result = .ok () ↔
      ∃ x, (reached limit ops).Feasible x ∧ c.relation.Holds (c.expression.value x)) := by
  obtain ⟨issued, hSound⟩ := sound_reached hOk
  have hPinned := pinned_reached hOk hKeeps
  have hGet := get?_of_not_hasConstraint hNew
  rw [perform] at hThrough
  rw [addConstraint] at hThrough ⊢
  dsimp only
  cases hSound.insertion c with
  | duplicate hLive _ _ =>
    rw [hNew] at hLive
    cases hLive
  | broken cause hResult =>
    refine absurd ?_ (not_breakdown_of_answer hThrough cause)
    rw [hResult]
    rfl
  | accepted _ _ tag hResult hAccepted =>
    have hExists := hAccepted.exists_feasible hGet hRequired hSound hPinned
    rw [hResult]
    exact ⟨iff_of_false (fun h => by cases h) (not_not_intro hExists), iff_of_true rfl hExists⟩
  | refused _ _ hResult _ _ hImpossible =>
    have hNone : ¬ ∃ x, (reached limit ops).Feasible x ∧ c.relation.Holds (c.expression.value x) := by
      rintro ⟨x, hFeasible, hHolds⟩
      exact (hImpossible hPinned).not_holds hGet hSound hFeasible hHolds
    rw [hResult]
    exact ⟨iff_of_true rfl hNone, iff_of_false (fun h => by cases h) hNone⟩

/-- The first number of `splitOfTen` is at least four. -/
def atLeastFour : Constraint Rat := .make 5 ⟨[⟨⟨1⟩, 1⟩], -4⟩ .greaterOrEqual .required

theorem refused_iff_unsatisfiable_of_splitOfTen :
    ((reached 10 splitOfTen).addConstraint atLeastFour).result = .error .unsatisfiableConstraint ∧
      ¬ ∃ x, (reached 10 splitOfTen).Feasible x ∧
        atLeastFour.relation.Holds (atLeastFour.expression.value x) := by
  have hRefused : ((reached 10 splitOfTen).addConstraint atLeastFour).result =
      .error .unsatisfiableConstraint := by
    decide +kernel
  refine ⟨hRefused, (refused_iff_unsatisfiable_of_run 10 splitOfTen ?_ ?_ atLeastFour ?_ ?_ ?_).1.mp
    hRefused⟩ <;> decide +kernel

end Solver

end SoftSimplex
