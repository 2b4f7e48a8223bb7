import SoftSimplex.Proofs.PassBreakdowns

/-!
# Pivots of the primal pass

Among the columns that may enter the pass takes the lowest, and among the rows that limit the entering
column most the one of the lowest column. A pivot trades the leaving symbol for the entering one, and
lowers the objective by the entering column's cost times the step. The step is zero exactly if the
leaving row shows zero.
-/

namespace SoftSimplex.Tableau
set_option autoImplicit false

variable {issued : Set Symbol} {t : Tableau Rat} {row r : Row Rat} {leaving entering s : Symbol}
  {goal : Goal} {e : Symbol × Rat}

section Lowest

theorem le_of_entering? (hEntering : t.entering? goal = some entering)
    (hr : t.objectiveFor? goal = some r) (he : e ∈ r.cells.entries) (hFalls : e.2 < 0)
    (hKind : e.1.isDummy = false) : entering.id ≤ e.1.id := by
  obtain ⟨q, hq, hFirst⟩ := Option.bind_eq_some_iff.mp hEntering
  obtain rfl : q = r := Option.some.inj (hq.symm.trans hr)
  obtain ⟨d, hFind, rfl⟩ := Option.map_eq_some_iff.mp hFirst
  obtain ⟨_, before, after, hSplit, hBefore⟩ := List.find?_eq_some_iff_append.mp hFind
  have hOrdered := q.cells.ordered
  unfold InColumnOrder at hOrdered
  rw [hSplit] at hOrdered he
  rcases List.mem_append.mp he with he | he
  · have hSkipped := hBefore e he
    simp [hFalls, hKind] at hSkipped
  · rcases List.mem_cons.mp he with rfl | he
    · exact le_rfl
    · exact ((List.pairwise_cons.mp (List.pairwise_append.mp hOrdered).2.1).1 e he).le

theorem pairwise_upperBounds (t : Tableau Rat) (entering : Symbol) :
    (t.upperBounds entering).Pairwise fun a b => a.1.1.id < b.1.1.id := by
  refine List.Pairwise.filterMap _ (fun a b hab x hx y hy => ?_) t.rows.ordered
  simp only [Option.ite_none_right_eq_some, Option.some.injEq] at hx hy
  obtain ⟨_, rfl⟩ := hx
  obtain ⟨_, rfl⟩ := hy
  exact hab

theorem ratio_lt_of_leavingRow? (hLeaving : t.leavingRow? entering = some (leaving, row))
    {f : Symbol × Row Rat} (hf : f ∈ t.rows.entries) (hKind : f.1.isExternal = false)
    (hFalls : f.2.coefficient entering < 0) (hBelow : f.1.id < leaving.id) :
    -row.constant / row.coefficient entering < -f.2.constant / f.2.coefficient entering := by
  obtain ⟨before, q, after, hSplit, hBefore, _⟩ := LeastRatio.split_of_choose hLeaving
  have hMem := mem_upperBounds_iff.mpr ⟨hf, hKind, hFalls, rfl⟩
  have hOrdered := pairwise_upperBounds t entering
  have hOwn : q = -row.constant / row.coefficient entering :=
    (mem_upperBounds_iff.mp (hSplit ▸ List.mem_append_right _ List.mem_cons_self)).2.2.2
  rw [hSplit] at hMem hOrdered
  subst hOwn
  rcases List.mem_append.mp hMem with hMem | hMem
  · exact hBefore _ hMem
  · rcases List.mem_cons.mp hMem with hSame | hMem
    · cases hSame
      exact absurd hBelow (lt_irrefl _)
    · have hAbove := (List.pairwise_cons.mp (List.pairwise_append.mp hOrdered).2.1).1 _ hMem
      exact absurd hBelow (not_lt.mpr hAbove.le)

end Lowest

section Exchange

theorem objectiveFor?_pivot : (t.pivot leaving row entering).objectiveFor? goal =
    (t.objectiveFor? goal).map (·.substitute entering (row.exchange leaving entering)) := by
  cases goal with
  | primary =>
    exact congrArg some ((objective_touch _ _).trans (objective_touch _ _))
  | artificial => exact (artificial_touch _ _).trans (artificial_touch _ _)

theorem Solved.mem_keys_pivot_iff (h : t.Solved issued)
    (hPivot : t.Crossing leaving row entering) :
    s ∈ (t.pivot leaving row entering).rows.keys ↔ s = entering ∨ s ∈ t.rows.keys ∧ s ≠ leaving := by
  have hLeaving := SymbolMap.mem_keys_of_mem hPivot.row_mem
  have hKeys : s ∈ ((t.eliminate leaving row entering).touch entering).rows.keys ↔
      s ∈ t.rows.keys ∧ s ≠ leaving := by
    rw [rows_touch, keys_eliminate]
    refine SymbolMap.mem_keys_erase_iff.trans (and_congr_right fun hs => not_congr ?_)
    exact ⟨SymbolMap.key_eq_of_id_eq hs hLeaving, congrArg Symbol.id⟩
  exact (SymbolMap.mem_keys_insert_iff (h.entering_new_touched hPivot)).trans (or_congr_right hKeys)

variable (hDistinct : Set.InjOn Symbol.id issued) (h : t.Solved issued)
  (hEntering : t.entering? goal = some entering)
  (hLeaving : t.leavingRow? entering = some (leaving, row))

section Distinct

include hDistinct h hEntering hLeaving

theorem Solved.sameMeaning_primal : t.SameMeaning (t.pivot leaving row entering) :=
  h.sameMeaning_pivot (h.exchangeable_primal hDistinct hEntering hLeaving).toCrossing
    (coefficient_neg_of_leavingRow? hLeaving).ne

theorem Solved.solved_primal : (t.pivot leaving row entering).Solved issued := by
  have hPivot := h.exchangeable_primal hDistinct hEntering hLeaving
  exact h.pivot hPivot.row_mem hPivot.entering_mem

end Distinct

include h hEntering hLeaving in
/-- The objective falls, unless the leaving row shows zero. -/
theorem Solved.constant_primal (hFeasible : t.Feasible) (hr : t.objectiveFor? goal = some r) :
    (r.substitute entering (row.exchange leaving entering)).constant ≤ r.constant ∧
      ((r.substitute entering (row.exchange leaving entering)).constant = r.constant →
        row.constant = 0) := by
  obtain ⟨hRow, hKind⟩ := mem_rows_of_leavingRow? hLeaving
  have hCost := coefficient_neg_of_entering? hEntering hr
  have hCoefficient := coefficient_neg_of_leavingRow? hLeaving
  have hConstant := hFeasible _ hRow hKind
  rw [Row.constant_substitute, Row.constant_exchange (h.leaving_coefficient hRow) hCoefficient.ne]
  have hStep : 0 ≤ -(row.constant / row.coefficient entering) :=
    neg_nonneg.mpr (div_nonpos_of_nonneg_of_nonpos hConstant hCoefficient.le)
  refine ⟨add_le_of_nonpos_right (mul_nonpos_of_nonpos_of_nonneg hCost.le hStep), fun hSame => ?_⟩
  have hZero := (mul_eq_zero.mp (add_eq_left.mp hSame)).resolve_left hCost.ne
  exact (div_eq_zero_iff.mp (neg_eq_zero.mp hZero)).resolve_right hCoefficient.ne

end Exchange

end SoftSimplex.Tableau
