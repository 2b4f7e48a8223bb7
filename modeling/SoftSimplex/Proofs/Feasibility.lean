import SoftSimplex.Proofs.PassCandidates
import SoftSimplex.Proofs.SolutionSet

/-!
# Feasibility under pivots

A tableau is feasible if every restricted row has a constant of at least zero, and dual feasible if
every cell of the objective that is not a dummy has a coefficient of at least zero. The ratio test
of the primal pass keeps the first, that of the dual pass keeps the second. A restricted row below
zero is in the queue after every pivot, because a substitution queues all of them.
-/

namespace SoftSimplex
set_option autoImplicit false

theorem Row.mem_of_coefficient_ne_zero {issued : Set Symbol} {r : Row Rat} {s : Symbol}
    (hDistinct : Set.InjOn Symbol.id issued) (hIssued : r.AllColumns (· ∈ issued))
    (hs : s ∈ issued) (h : r.coefficient s ≠ 0) : (s, r.coefficient s) ∈ r.cells.entries := by
  have hSome : ∃ c, r.cells.get? s = some c := by
    cases hGet : r.cells.get? s with
    | none => exact absurd (Row.coefficient_of_avoids (Row.ne_of_get?_eq_none hGet)) h
    | some c => exact ⟨c, rfl⟩
  obtain ⟨c, hGet⟩ := hSome
  obtain ⟨u, hId, hu⟩ := SymbolMap.exists_mem_of_get? hGet
  obtain rfl : u = s := hDistinct (hIssued u (SymbolMap.mem_keys_of_mem hu)) hs hId
  rwa [Row.coefficient_of_mem hu]

namespace Tableau

def Feasible (t : Tableau Rat) : Prop :=
  ∀ e ∈ t.rows.entries, e.1.isExternal = false → 0 ≤ e.2.constant

def DualFeasible (t : Tableau Rat) : Prop :=
  ∀ e ∈ t.objective.cells.entries, e.1.isDummy = false → 0 ≤ e.2

def Queued (t : Tableau Rat) : Prop :=
  ∀ e ∈ t.rows.entries, e.1.isExternal = false → e.2.constant < 0 →
    ∃ s ∈ t.infeasible, s.id = e.1.id

/-- The values that symbols may take: at least zero if restricted, and zero for a dummy. -/
def Admissible (issued : Set Symbol) (a : Nat → Rat) : Prop :=
  ∀ s ∈ issued, (s.isExternal = false → 0 ≤ a s.id) ∧ (s.isDummy = true → a s.id = 0)

variable {issued : Set Symbol} {t u : Tableau Rat} {row : Row Rat} {leaving entering s : Symbol}

theorem constant_le_value_of_admissible {r : Row Rat} {a : Nat → Rat}
    (hIssued : r.AllColumns (· ∈ issued)) (hKinds : r.AllColumns fun c => c.isExternal = false)
    (hCost : ∀ e ∈ r.cells.entries, e.1.isDummy = false → 0 ≤ e.2) (ha : Admissible issued a) :
    r.constant ≤ r.value a := by
  refine le_add_of_nonneg_right (List.sum_nonneg fun x hx => ?_)
  obtain ⟨e, he, rfl⟩ := List.mem_map.mp hx
  have hKey := SymbolMap.mem_keys_of_mem he
  obtain ⟨hNonneg, hZero⟩ := ha e.1 (hIssued e.1 hKey)
  cases hDummy : e.1.isDummy with
  | true => rw [hZero hDummy, mul_zero]
  | false => exact mul_nonneg (hCost e he hDummy) (hNonneg (hKinds e.1 hKey))

theorem Feasible.mono (h : t.Feasible) (hRows : u.rows = t.rows) : u.Feasible := by
  intro e he
  exact h e (hRows ▸ he)

theorem Feasible.queued (h : t.Feasible) : t.Queued := by
  intro e he hKind hBelow
  exact absurd (h e he hKind) (not_le.mpr hBelow)

theorem Feasible.eraseRow (h : t.Feasible) : (t.eraseRow s).Feasible :=
  fun e he => h e (SymbolMap.mem_erase_iff.mp he).1

theorem Feasible.insertRow (h : t.Feasible) (hNew : ∀ b ∈ t.rows.keys, b.id ≠ s.id)
    (hRow : s.isExternal = false → 0 ≤ row.constant) : (t.insertRow s row).Feasible := by
  intro e he
  rcases (SymbolMap.mem_insert_iff hNew).mp he with rfl | he
  · exact hRow
  · exact h e he

theorem Feasible.strike (h : t.Feasible) : (t.strike s).Feasible := by
  intro e he
  obtain ⟨d, hd, rfl⟩ := SymbolMap.mem_mapValues_iff.mp he
  exact h d hd

theorem Feasible.complete_nonneg (h : t.Feasible) (hSolved : t.Solved issued)
    (hDistinct : Set.InjOn Symbol.id issued) (hs : s ∈ issued) (hKind : s.isExternal = false) :
    0 ≤ t.complete 0 s.id := by
  rcases hSolved.complete_cases hDistinct hs 0 with ⟨row, hRow, hValue⟩ | hValue
  · rw [hValue, ← row.constant_eq_value]
    exact h (s, row) hRow hKind
  · exact hValue.ge

theorem feasible_substitute (h : ∀ e ∈ t.rows.entries, e.1.isExternal = false →
    0 ≤ e.2.constant + e.2.coefficient s * row.constant) : (t.substitute s row).Feasible := by
  intro e he hKind
  obtain ⟨d, hd, rfl⟩ := SymbolMap.mem_mapValues_iff.mp he
  rw [Row.constant_substitute]
  exact h d hd hKind

theorem DualFeasible.coefficient_nonneg (h : t.DualFeasible) (hDistinct : Set.InjOn Symbol.id issued)
    (hSolved : t.Solved issued) (hs : s ∈ issued) (hKind : s.isDummy = false) :
    0 ≤ t.objective.coefficient s := by
  by_cases hZero : t.objective.coefficient s = 0
  · exact hZero.ge
  · have hMem := Row.mem_of_coefficient_ne_zero hDistinct hSolved.columns.objective hs hZero
    exact h (s, _) hMem hKind

/-- After a pivot the entering row is the only one that the substitution has not looked at. -/
theorem Solved.queued_pivot (hSolved : t.Solved issued)
    (hPivot : t.Crossing leaving row entering)
    (hRow : 0 ≤ (row.exchange leaving entering).constant) :
    (t.pivot leaving row entering).Queued := by
  intro e he hKind hBelow
  have hNew : ∀ b ∈ ((t.eliminate leaving row entering).touch entering).rows.keys,
      b.id ≠ entering.id := by
    rw [rows_touch]
    exact hSolved.entering_new hPivot
  rcases (SymbolMap.mem_insert_iff hNew).mp he with rfl | he
  · exact absurd hRow (not_le.mpr hBelow)
  · rw [rows_touch, Tableau.eliminate, rows_touch] at he
    refine ⟨e.1, ?_, rfl⟩
    rw [infeasible_pivot, List.mem_append, List.mem_reverse]
    exact .inl (mem_negativeRestricted_iff.mpr ⟨e.2, he, hKind, hBelow⟩)

section Primal

theorem nonneg_of_below_bound {c q θ : Rat} (hc : 0 ≤ c) (hθ : 0 ≤ θ) (hBound : q < 0 → θ ≤ -c / q) :
    0 ≤ c + q * θ := by
  by_cases hq : q < 0
  · have h := mul_le_mul_of_nonpos_left (hBound hq) hq.le
    rw [mul_div_cancel₀ _ hq.ne] at h
    linarith
  · have h := mul_nonneg (not_lt.mp hq) hθ
    linarith

variable (hDistinct : Set.InjOn Symbol.id issued) (h : t.Solved issued) {goal : Goal}
  (hEntering : t.entering? goal = some entering)
  (hLeaving : t.leavingRow? entering = some (leaving, row))
include hDistinct h hEntering hLeaving

theorem Solved.exchangeable_primal : t.Exchangeable leaving row entering := by
  obtain ⟨r, hr, c, hCell, _, hKind⟩ := exists_of_entering? hEntering
  obtain ⟨q, hMem, _⟩ := LeastRatio.least_of_choose hLeaving
  obtain ⟨hRow, hRestricted, hNegative, _⟩ := mem_upperBounds_iff.mp hMem
  have hIssued : entering ∈ issued :=
    h.objectiveFor?_columns hr _ (SymbolMap.mem_keys_of_mem hCell)
  have hCell := Row.mem_of_coefficient_ne_zero hDistinct (h.columns.rows _ hRow) hIssued hNegative.ne
  exact ⟨⟨hRow, SymbolMap.mem_keys_of_mem hCell⟩, hRestricted, hKind⟩

theorem Solved.feasible_primal (hFeasible : t.Feasible) :
    (t.pivot leaving row entering).Feasible := by
  have hPivot := h.exchangeable_primal hDistinct hEntering hLeaving
  obtain ⟨q, hMem, hLeast⟩ := LeastRatio.least_of_choose hLeaving
  obtain ⟨hRow, hRestricted, hNegative, rfl⟩ := mem_upperBounds_iff.mp hMem
  have hθ : (row.exchange leaving entering).constant = -row.constant / row.coefficient entering := by
    rw [Row.constant_exchange (h.leaving_coefficient hRow) hNegative.ne, neg_div]
  have hNonneg : 0 ≤ (row.exchange leaving entering).constant := by
    rw [hθ]
    have hConstant := hFeasible (leaving, row) hRow hRestricted
    exact div_nonneg_of_nonpos (neg_nonpos.mpr hConstant) hNegative.le
  have hEliminate : (t.eliminate leaving row entering).Feasible := by
    refine (feasible_substitute fun e he hKind => ?_).mono (rows_touch _ _)
    have he := (SymbolMap.mem_erase_iff.mp he).1
    refine nonneg_of_below_bound (hFeasible e he hKind) hNonneg fun hq => ?_
    rw [hθ]
    exact hLeast (e, _) (mem_upperBounds_iff.mpr ⟨he, hKind, hq, rfl⟩)
  refine (hEliminate.mono (rows_touch _ _)).insertRow ?_ fun _ => hNonneg
  rw [rows_touch]
  exact h.entering_new hPivot.toCrossing

end Primal

section Dual

theorem exists_of_dualEntering? (h : t.dualEntering? row = some entering) :
    (entering, row.coefficient entering) ∈ row.cells.entries ∧ 0 < row.coefficient entering ∧
      entering.isDummy = false ∧ ∀ e ∈ row.cells.entries, 0 < e.2 → e.1.isDummy = false →
        t.objective.coefficient entering / row.coefficient entering ≤
          t.objective.coefficient e.1 / e.2 := by
  obtain ⟨q, hMem, hLeast⟩ := LeastRatio.least_of_choose h
  obtain ⟨c, hCell, hPositive, hKind, rfl⟩ := mem_dualRatios_iff.mp hMem
  obtain rfl : row.coefficient entering = c := Row.coefficient_of_mem hCell
  exact ⟨hCell, hPositive, hKind,
    fun e he hp hk => hLeast (e.1, _) (mem_dualRatios_iff.mpr ⟨e.2, he, hp, hk, rfl⟩)⟩

variable (hDistinct : Set.InjOn Symbol.id issued) (h : t.Solved issued)
  (hRow : (leaving, row) ∈ t.rows.entries) (hEntering : t.dualEntering? row = some entering)

include hRow hEntering in
theorem crossing_dual : t.Crossing leaving row entering := by
  obtain ⟨hCell, _⟩ := exists_of_dualEntering? hEntering
  exact ⟨hRow, SymbolMap.mem_keys_of_mem hCell⟩

include hRow hEntering in
theorem exchangeable_dual (hRestricted : leaving.isExternal = false) :
    t.Exchangeable leaving row entering := by
  obtain ⟨_, _, hKind, _⟩ := exists_of_dualEntering? hEntering
  exact ⟨crossing_dual hRow hEntering, hRestricted, hKind⟩

include h hRow hEntering in
theorem Solved.entering_nonneg (hBelow : row.constant < 0) :
    0 ≤ (row.exchange leaving entering).constant := by
  obtain ⟨_, hPositive, _⟩ := exists_of_dualEntering? hEntering
  rw [Row.constant_exchange (h.leaving_coefficient hRow) hPositive.ne']
  exact neg_nonneg.mpr (div_nonpos_of_nonpos_of_nonneg hBelow.le hPositive.le)

include hDistinct h hRow hEntering in
/-- The reduced cost of a column stays above zero because the entering one has the least ratio. -/
theorem Solved.reduced_cost_nonneg (hDual : t.DualFeasible) (hs : s ∈ issued)
    (hKind : s.isDummy = false) (hne : s.id ≠ entering.id) :
    0 ≤ t.objective.coefficient s +
      t.objective.coefficient entering * (row.exchange leaving entering).coefficient s := by
  obtain ⟨hCell, hPositive, hEnteringKind, hLeast⟩ := exists_of_dualEntering? hEntering
  have hBasic := h.leaving_coefficient hRow
  have hColumns := h.columns.rows _ hRow
  have hCost : 0 ≤ t.objective.coefficient entering := hDual.coefficient_nonneg hDistinct h
    (hColumns _ (SymbolMap.mem_keys_of_mem hCell)) hEnteringKind
  have hOwn := hDual.coefficient_nonneg hDistinct h hs hKind
  by_cases hLeaving : s.id = leaving.id
  · rw [Row.coefficient_congr _ hLeaving, Row.coefficient_congr (row.exchange leaving entering) hLeaving,
      Row.coefficient_exchange_leaving hBasic hPositive.ne']
    rw [Row.coefficient_congr _ hLeaving] at hOwn
    exact add_nonneg hOwn (mul_nonneg hCost (div_nonneg zero_le_one hPositive.le))
  · rw [Row.coefficient_exchange_of_ne hBasic hPositive.ne' hLeaving hne]
    have hRewrite : t.objective.coefficient entering * -(row.coefficient s / row.coefficient entering) =
        -(t.objective.coefficient entering / row.coefficient entering * row.coefficient s) := by
      ring
    rw [hRewrite]
    have hRatio : 0 ≤ t.objective.coefficient entering / row.coefficient entering :=
      div_nonneg hCost hPositive.le
    by_cases hUp : 0 < row.coefficient s
    · have hMem := Row.mem_of_coefficient_ne_zero hDistinct hColumns hs hUp.ne'
      have hLow := hLeast (s, _) hMem hUp hKind
      have hBound := (le_div_iff₀ hUp).mp hLow
      linarith
    · have hDown := mul_nonneg hRatio (neg_nonneg.mpr (not_lt.mp hUp))
      linarith

include hDistinct h hRow hEntering in
theorem Solved.dualFeasible_dual (hDual : t.DualFeasible) :
    (t.pivot leaving row entering).DualFeasible := by
  intro e he hKind
  have hPivot := crossing_dual hRow hEntering
  have hObjective : (t.pivot leaving row entering).objective =
      t.objective.substitute entering (row.exchange leaving entering) :=
    (objective_touch _ _).trans (objective_touch _ _)
  have hIssued : e.1 ∈ issued :=
    (h.pivot hPivot.row_mem hPivot.entering_mem).columns.objective _ (SymbolMap.mem_keys_of_mem he)
  have hne : e.1.id ≠ entering.id := by
    have hAvoids : ((t.eliminate leaving row entering).touch entering).AllRows fun r =>
        r.AllColumns fun c => c.id ≠ entering.id := (h.eliminate_avoids hPivot.row_mem).touch
    exact hAvoids.objective e.1 (SymbolMap.mem_keys_of_mem he)
  rw [← Row.coefficient_of_mem he, hObjective, Row.coefficient_substitute_of_ne hne]
  exact h.reduced_cost_nonneg hDistinct hRow hEntering hDual hIssued hKind hne

end Dual

end Tableau

end SoftSimplex
