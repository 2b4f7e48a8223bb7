import SoftSimplex.Proofs.PhaseOnePass

/-!
# Adding a row without a pass

A row may be solved at once for a variable of the caller, for a new restricted symbol that comes out
at least zero, or for a new dummy if the row mentions nothing but dummies and is zero. None of the
three touches a restricted row that was there before.
-/

namespace SoftSimplex.Tableau
set_option autoImplicit false

variable {issued : Set Symbol} {t : Tableau Rat} {row : Row Rat} {s : Symbol}

theorem Addable.constant_solveFor (hRow : t.Addable issued row) (hs : s ∈ row.cells.keys) :
    (row.solveFor s).constant = -(row.constant / row.coefficient s) := by
  rw [Row.constant_eq_value, Row.value_solveFor (hRow.reduced.coefficient_ne_zero hs),
    row.constant_eq_value, Pi.zero_apply, zero_sub]

theorem Regular.rows_avoid_external (h : t.Regular issued) (hDistinct : Set.InjOn Symbol.id issued)
    (hs : s ∈ issued) (hKind : s.isExternal = true) :
    ∀ e ∈ t.rows.entries, e.1.isExternal = false → e.2.AllColumns fun c => c.id ≠ s.id := by
  intro e he hRestricted
  exact avoids_of_kind hDistinct (h.solved.columns.rows e he) hs (h.separate.rows e he hRestricted)
    (by simp [hKind])

section Install

variable (hDistinct : Set.InjOn Symbol.id issued) (h : t.Regular issued)
  (hOrderly : t.Orderly issued) (hFeasible : t.Feasible) (hNone : t.artificial = none)
  (hRow : t.Addable issued row) (hs : s ∈ row.cells.keys)
include h hOrderly hFeasible hNone hRow hs

theorem Regular.placed_install
    (hAvoids : ∀ e ∈ t.rows.entries, e.1.isExternal = false → e.2.AllColumns fun c => c.id ≠ s.id)
    (hSeparate : (t.substitute s (row.solveFor s)).Separate)
    (hNew : s.isExternal = false →
      0 ≤ (row.solveFor s).constant ∧ row.AllColumns fun c => c.isExternal = false)
    (hDummy : s.isDummy = true → row.constant = 0 ∧ row.AllColumns fun c => c.isDummy = true) :
    Placed issued t (t.install row s) row := by
  have hKeys : ∀ b ∈ ((t.substitute s (row.solveFor s)).touch s).rows.keys, b.id ≠ s.id := by
    rw [rows_touch, keys_substitute]
    exact hRow.subject_new hs
  have hFeasibleRest : (t.substitute s (row.solveFor s)).Feasible := by
    refine feasible_substitute fun e he hKind => ?_
    rw [Row.coefficient_of_avoids (hAvoids e he hKind), zero_mul, add_zero]
    exact hFeasible e he hKind
  refine ⟨⟨h.solved.install (hRow.columns s hs).1 hRow.columns, ?_, ?_⟩, ?_, ?_, ?_,
    hRow.absorbs_install hs, fun hPinned => ?_⟩
  · exact (h.reduced.substitute fun _ hr => hr.substitute).touch.insertRow hRow.reduced.solveFor
  · refine hSeparate.touch.insertRow hKeys fun hKind => ?_
    exact Row.AllColumns.solveFor ((hNew hKind).2.imp fun _ hc _ => hc)
  · exact (hOrderly.substitute h.solved).mono (infeasible_touch _ s)
  · exact (hFeasibleRest.mono (rows_touch _ _)).insertRow hKeys fun hKind => (hNew hKind).1
  · rw [show (t.install row s).artificial = _ from artificial_touch _ _]
    exact congrArg (Option.map _) hNone
  · have hRest : (t.substitute s (row.solveFor s)).Pinned :=
      hPinned.substitute_of_avoids fun e he hKind => hAvoids e he (Symbol.isExternal_of_isDummy hKind)
    refine (hRest.mono (rows_touch _ _)).insertRow hKeys fun hKind => ⟨?_, ?_⟩
    · rw [hRow.constant_solveFor hs, (hDummy hKind).1, zero_div, neg_zero]
    · exact Row.AllColumns.solveFor ((hDummy hKind).2.imp fun _ hc _ => hc)

include hDistinct in
theorem Regular.placed_install_external (hKind : s.isExternal = true) :
    Placed issued t (t.install row s) row := by
  have hIssued := (hRow.columns s hs).1
  have hNot : ¬ s.isExternal = false := by simp [hKind]
  have hRows := h.rows_avoid_external hDistinct hIssued hKind
  refine h.placed_install hOrderly hFeasible hNone hRow hs hRows ?_ (fun hk => absurd hk hNot)
    fun hk => absurd (Symbol.isExternal_of_isDummy hk) hNot
  exact h.separate.substitute_of_avoids hRows
    (avoids_of_kind hDistinct h.solved.columns.objective hIssued h.separate.objective hNot)
    fun r hr => avoids_of_kind hDistinct (h.solved.columns.artificial r hr) hIssued
      (h.separate.artificial r hr) hNot

/-- A restricted subject has to be new to the rows and to come out at least zero. -/
theorem Regular.placed_install_restricted
    (hNew : ∀ e ∈ t.rows.entries, e.2.AllColumns fun c => c.id ≠ s.id)
    (hKinds : row.AllColumns fun c => c.isExternal = false)
    (hConstant : 0 ≤ row.constant)
    (hSign : row.coefficient s < 0 ∨ row.constant = 0)
    (hDummy : s.isDummy = true → row.constant = 0 ∧ row.AllColumns fun c => c.isDummy = true) :
    Placed issued t (t.install row s) row := by
  refine h.placed_install hOrderly hFeasible hNone hRow hs (fun e he _ => hNew e he) ?_
    (fun _ => ⟨?_, hKinds⟩) hDummy
  · exact h.separate.substitute (Row.AllColumns.solveFor (hKinds.imp fun _ hc _ => hc))
  · rw [hRow.constant_solveFor hs]
    cases hSign with
    | inl hNegative =>
      exact neg_nonneg.mpr (div_nonpos_of_nonneg_of_nonpos hConstant hNegative.le)
    | inr hZero =>
      rw [hZero, zero_div, neg_zero]

end Install

end SoftSimplex.Tableau
