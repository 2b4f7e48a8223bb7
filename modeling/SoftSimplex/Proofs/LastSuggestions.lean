import SoftSimplex.Proofs.EditRegistry

/-!
# Last suggestions

What an edit variable is held at is the last suggestion that the solver has accepted since the variable
was registered, and zero before any. The journal of the run says so, whichever of the three kinds of
columns the shift of the constant has gone through. The equations that the rows of the tableau stand for
are measured from there.
-/

namespace SoftSimplex.Solver
set_option autoImplicit false

/-- After every run without a breakdown and in any arithmetic, a constraint is measured from the last
suggestion of the run. -/
theorem target_reached {α : Type} [Scalar α] {limit : Nat} {ops : List (Operation α)}
    (hThrough : (withPivotLimit limit : Solver α).RunsThrough ops) (id : Nat) :
    (reached limit ops).target id =
      Operation.lastSuggestion ((withPivotLimit limit : Solver α).journal ops) id :=
  (registered_reached hThrough).target_eq id

/-- After every run without a breakdown the rows of the tableau have the solutions of the live
constraints' equations, each measured from the last suggestion of the run. Each equation has columns of
its own and mentions tracked variables only, and there are as many rows as equations. -/
theorem rows_iff_equations_of_run (limit : Nat) (ops : List (Operation Rat))
    (hOk : (withPivotLimit limit : Solver Rat).RunsThrough ops) :
    let s : Solver Rat := reached limit ops
    let done := (withPivotLimit limit : Solver Rat).journal ops
    (∀ a : Nat → Rat, s.tableau.Satisfies a ↔ ∀ live ∈ s.constraints.values,
      live.constraint.expression.value (s.tracked.valuation a) -
        Operation.lastSuggestion done live.constraint.id + live.tag.balance live.constraint a = 0) ∧
    s.tableau.rows.entries.length = s.constraints.entries.length ∧
    (∀ live ∈ s.constraints.values, live.tag.Marks live.constraint) ∧
    s.constraints.values.Pairwise LiveConstraint.Apart ∧
    ∀ live ∈ s.constraints.values, ∀ v ∈ mentions live.constraint.expression.terms,
      s.tracked.isTracked v := by
  obtain ⟨issued, hSound⟩ := sound_reached hOk
  refine ⟨fun a => ?_, ?_, hSound.ledger.marks, hSound.ledger.apart, fun live hLive v hv => ?_⟩
  · refine (hSound.meaning.rows a).trans (forall₂_congr fun live _ => ?_)
    rw [equation, residual, target_reached hOk]
  · rw [hSound.meaning.size, Registry.values, List.length_map]
  · obtain ⟨x, hx⟩ := hSound.ledger.counts.tracked v (mem_mentioned hLive hv)
    obtain ⟨r, hGet, _⟩ := Option.map_eq_some_iff.mp hx
    rw [VariableTable.isTracked, Registry.contains, hGet]
    rfl

/-- The second of the three equations holds the first number at the suggested four. -/
theorem rows_iff_equations_of_splitOfTen :
    (reached 10 splitOfTen).constraints.entries.length = 3 ∧
      ∃ live ∈ (reached 10 splitOfTen).constraints.values,
        live.constraint.id = 2 ∧ ∀ a, (reached 10 splitOfTen).tableau.Satisfies a →
          live.constraint.expression.value ((reached 10 splitOfTen).tracked.valuation a) - 4 +
            live.tag.balance live.constraint a = 0 := by
  obtain ⟨hRows, _⟩ := rows_iff_equations_of_run 10 splitOfTen (by decide +kernel)
  have hFound : ∃ live ∈ (reached 10 splitOfTen).constraints.values, live.constraint.id = 2 := by
    decide +kernel
  have hSuggested : Operation.lastSuggestion
      ((withPivotLimit 10 : Solver Rat).journal splitOfTen) 2 = 4 := by
    decide +kernel
  obtain ⟨live, hLive, hNumber⟩ := hFound
  refine ⟨by decide +kernel, live, hLive, hNumber, fun a hSat => ?_⟩
  have hEquation := (hRows a).mp hSat live hLive
  rwa [hNumber, hSuggested] at hEquation

end SoftSimplex.Solver
