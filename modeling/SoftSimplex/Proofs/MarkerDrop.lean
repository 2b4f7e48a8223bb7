import SoftSimplex.Proofs.Passes
import SoftSimplex.Tableau.MarkerRemoval

/-!
# Dropping a marker keeps the rest feasible

A marker that is not basic is pivoted into the row that limits it most: upwards if some restricted
row falls with it, else downwards. Either way every other constant stays at least zero. Only if no
restricted row mentions the marker does an external row leave. Whatever row leaves, the solutions of
the rest are the old ones with the marker left out.
-/

namespace SoftSimplex.Tableau
set_option autoImplicit false

variable {issued : Set Symbol} {t u : Tableau Rat} {row : Row Rat} {leaving marker : Symbol}

theorem mem_markerRows_iff {e : Symbol × Row Rat} :
    e ∈ t.markerRows marker ↔ e ∈ t.rows.entries ∧ e.2.coefficient marker ≠ 0 := by
  simp [markerRows]

/-- The row that leaves with a marker, by the bucket that it comes from. -/
inductive Leaves (t : Tableau Rat) (marker : Symbol) (leaving : Symbol) (row : Row Rat) : Prop where
  | falling (restricted : leaving.isExternal = false) (negative : row.coefficient marker < 0)
      (least : ∀ e ∈ t.rows.entries, e.1.isExternal = false → e.2.coefficient marker < 0 →
        -row.constant / row.coefficient marker ≤ -e.2.constant / e.2.coefficient marker)
  | rising (restricted : leaving.isExternal = false) (positive : 0 < row.coefficient marker)
      (least : ∀ e ∈ t.rows.entries, e.1.isExternal = false → 0 ≤ e.2.coefficient marker ∧
        (0 < e.2.coefficient marker →
          row.constant / row.coefficient marker ≤ e.2.constant / e.2.coefficient marker))
  | external (free : leaving.isExternal = true) (nonzero : row.coefficient marker ≠ 0)
      (absent : ∀ e ∈ t.rows.entries, e.1.isExternal = false → e.2.coefficient marker = 0)

/-- The restricted rows that have a marker as a cell. -/
def markedRestricted (t : Tableau Rat) (marker : Symbol) : List (Symbol × Row Rat) :=
  (t.markerRows marker).filter fun e => !e.1.isExternal

theorem mem_markedRestricted_iff {e : Symbol × Row Rat} : e ∈ t.markedRestricted marker ↔
    e ∈ t.rows.entries ∧ e.2.coefficient marker ≠ 0 ∧ e.1.isExternal = false := by
  simp only [markedRestricted, List.mem_filter, mem_markerRows_iff, Bool.not_eq_true', and_assoc]

def fallingRatios (t : Tableau Rat) (marker : Symbol) : List ((Symbol × Row Rat) × Rat) :=
  ((t.markedRestricted marker).filter fun e => decide (e.2.coefficient marker < 0)).map
    fun e => (e, -e.2.constant / e.2.coefficient marker)

def risingRatios (t : Tableau Rat) (marker : Symbol) : List ((Symbol × Row Rat) × Rat) :=
  ((t.markedRestricted marker).filter fun e => !decide (e.2.coefficient marker < 0)).map
    fun e => (e, e.2.constant / e.2.coefficient marker)

theorem mem_fallingRatios_iff {e : Symbol × Row Rat} {q : Rat} :
    (e, q) ∈ t.fallingRatios marker ↔ e ∈ t.rows.entries ∧ e.1.isExternal = false ∧
      e.2.coefficient marker < 0 ∧ q = -e.2.constant / e.2.coefficient marker := by
  rw [fallingRatios, List.mem_map]
  constructor
  · rintro ⟨d, hd, hPair⟩
    cases hPair
    obtain ⟨hMem, hNegative⟩ := List.mem_filter.mp hd
    obtain ⟨hRow, _, hKind⟩ := mem_markedRestricted_iff.mp hMem
    exact ⟨hRow, hKind, of_decide_eq_true hNegative, rfl⟩
  · rintro ⟨hRow, hKind, hNegative, rfl⟩
    exact ⟨e, List.mem_filter.mpr ⟨mem_markedRestricted_iff.mpr ⟨hRow, hNegative.ne, hKind⟩,
      decide_eq_true hNegative⟩, rfl⟩

theorem mem_risingRatios_iff {e : Symbol × Row Rat} {q : Rat} :
    (e, q) ∈ t.risingRatios marker ↔ e ∈ t.rows.entries ∧ e.1.isExternal = false ∧
      0 < e.2.coefficient marker ∧ q = e.2.constant / e.2.coefficient marker := by
  rw [risingRatios, List.mem_map]
  constructor
  · rintro ⟨d, hd, hPair⟩
    cases hPair
    obtain ⟨hMem, hNonneg⟩ := List.mem_filter.mp hd
    obtain ⟨hRow, hNonzero, hKind⟩ := mem_markedRestricted_iff.mp hMem
    have hNonneg : 0 ≤ e.2.coefficient marker := by simpa using hNonneg
    exact ⟨hRow, hKind, lt_of_le_of_ne hNonneg hNonzero.symm, rfl⟩
  · rintro ⟨hRow, hKind, hPositive, rfl⟩
    exact ⟨e, List.mem_filter.mpr ⟨mem_markedRestricted_iff.mpr ⟨hRow, hPositive.ne', hKind⟩,
      by simpa using hPositive.le⟩, rfl⟩

theorem markerLeavingRow?_eq (t : Tableau Rat) (marker : Symbol) : t.markerLeavingRow? marker =
    (LeastRatio.choose (t.fallingRatios marker)).or ((LeastRatio.choose (t.risingRatios marker)).or
      ((t.markerRows marker).filter fun e => e.1.isExternal).getLast?) := by
  simp only [markerLeavingRow?, List.partition_eq_filter_filter, Option.orElse_eq_orElse,
    Option.orElse_eq_or]
  rfl

theorem leaves_of_markerLeavingRow? (h : t.markerLeavingRow? marker = some (leaving, row)) :
    (leaving, row) ∈ t.rows.entries ∧ t.Leaves marker leaving row := by
  rw [markerLeavingRow?_eq, Option.or_eq_some_iff, Option.or_eq_some_iff] at h
  rcases h with hFalling | ⟨hNoFalling, hOthers⟩
  · obtain ⟨q, hMem, hLeast⟩ := LeastRatio.least_of_choose hFalling
    obtain ⟨hRow, hKind, hNegative, rfl⟩ := mem_fallingRatios_iff.mp hMem
    exact ⟨hRow, .falling hKind hNegative fun e he hk hn =>
      hLeast (e, _) (mem_fallingRatios_iff.mpr ⟨he, hk, hn, rfl⟩)⟩
  have hNonneg : ∀ e ∈ t.rows.entries, e.1.isExternal = false → 0 ≤ e.2.coefficient marker := by
    intro e he hk
    by_contra hn
    have hMem := mem_fallingRatios_iff.mpr ⟨he, hk, not_le.mp hn, rfl⟩
    rw [LeastRatio.eq_nil_of_choose hNoFalling] at hMem
    cases hMem
  rcases hOthers with hRising | ⟨hNoRising, hExternal⟩
  · obtain ⟨q, hMem, hLeast⟩ := LeastRatio.least_of_choose hRising
    obtain ⟨hRow, hKind, hPositive, rfl⟩ := mem_risingRatios_iff.mp hMem
    exact ⟨hRow, .rising hKind hPositive fun e he hk => ⟨hNonneg e he hk, fun hp =>
      hLeast (e, _) (mem_risingRatios_iff.mpr ⟨he, hk, hp, rfl⟩)⟩⟩
  · obtain ⟨hMem, hKind⟩ := List.mem_filter.mp (List.mem_of_getLast? hExternal)
    obtain ⟨hRow, hNonzero⟩ := mem_markerRows_iff.mp hMem
    refine ⟨hRow, .external hKind hNonzero fun e he hk => ?_⟩
    by_contra hne
    have hMem := mem_risingRatios_iff.mpr
      ⟨he, hk, lt_of_le_of_ne (hNonneg e he hk) (Ne.symm hne), rfl⟩
    rw [LeastRatio.eq_nil_of_choose hNoRising] at hMem
    cases hMem

/-- The objective has one value at solutions that differ in free columns and the marker only. -/
def Ignores (issued : Set Symbol) (t : Tableau Rat) (marker : Symbol) : Prop :=
  ∀ a b, t.Satisfies a → t.Satisfies b →
    (∀ s ∈ issued, s.isExternal = false → s.id ≠ marker.id → a s.id = b s.id) →
      t.objective.value a = t.objective.value b

/-- What is left when a marker is dropped. -/
structure Dropped (issued : Set Symbol) (t u : Tableau Rat) (marker : Symbol) : Prop where
  regular : u.Regular issued
  orderly : u.Orderly issued
  feasible : u.Feasible
  artificial : u.artificial = none
  forward : ∀ a x, t.Satisfies (Function.update a marker.id x) → u.Satisfies a
  backward : ∀ a, u.Satisfies a → ∃ x, t.Satisfies (Function.update a marker.id x) ∧
    u.objective.value a = t.objective.value (Function.update a marker.id x)
  size : u.rows.entries.length + 1 = t.rows.entries.length

section Eliminate

variable (hRow : (leaving, row) ∈ t.rows.entries) (hLeaves : t.Leaves marker leaving row)

theorem Leaves.coefficient_ne_zero (hLeaves : t.Leaves marker leaving row) :
    row.coefficient marker ≠ 0 := by
  cases hLeaves with
  | falling _ hNegative _ => exact hNegative.ne
  | rising _ hPositive _ => exact hPositive.ne'
  | external _ hNonzero _ => exact hNonzero

include hRow hLeaves

theorem Solved.feasible_drop (h : t.Solved issued) (hFeasible : t.Feasible) :
    (t.eliminate leaving row marker).Feasible := by
  have hθ : (row.exchange leaving marker).constant = -(row.constant / row.coefficient marker) :=
    Row.constant_exchange (h.leaving_coefficient hRow) hLeaves.coefficient_ne_zero
  refine (feasible_substitute fun e he hKind => ?_).mono (rows_touch _ _)
  have he := (SymbolMap.mem_erase_iff.mp he).1
  have hConstant := hFeasible e he hKind
  cases hLeaves with
  | falling hRestricted hNegative hLeast =>
    rw [hθ]
    have hUp : row.constant / row.coefficient marker ≤ 0 :=
      div_nonpos_of_nonneg_of_nonpos (hFeasible _ hRow hRestricted) hNegative.le
    refine nonneg_of_below_bound hConstant (neg_nonneg.mpr hUp) fun hq => ?_
    rw [← neg_div]
    exact hLeast e he hKind hq
  | rising hRestricted hPositive hLeast =>
    rw [hθ]
    obtain ⟨hq, hBound⟩ := hLeast e he hKind
    cases hq.eq_or_lt with
    | inl hZero =>
      rw [← hZero, zero_mul, add_zero]
      exact hConstant
    | inr hq =>
      have hMul := (le_div_iff₀ hq).mp (hBound hq)
      linarith
  | external _ _ hAbsent =>
    rw [hAbsent e he hKind, zero_mul, add_zero]
    exact hConstant

/-- An external row leaves only if the restricted part does not mention the marker. -/
theorem Regular.separate_drop (h : t.Regular issued) (hNone : t.artificial = none)
    (hObjective : (∀ e ∈ t.rows.entries, e.1.isExternal = false → e.2.coefficient marker = 0) →
      t.objective.coefficient marker = 0) :
    (t.eliminate leaving row marker).Separate := by
  have hRestricted : leaving.isExternal = false → (t.eliminate leaving row marker).Separate :=
    fun hKind => h.separate.eliminate hKind hRow
  cases hLeaves with
  | falling hKind _ _ => exact hRestricted hKind
  | rising hKind _ _ => exact hRestricted hKind
  | external _ _ hAbsent =>
    refine (h.separate.eraseRow.substitute_of_avoids (fun e he hKind => ?_) ?_ ?_).touch
    · have he := (SymbolMap.mem_erase_iff.mp he).1
      exact (h.reduced.rows e he).avoids_iff.mpr (hAbsent e he hKind)
    · exact h.reduced.objective.avoids_iff.mpr (hObjective hAbsent)
    · intro r hr
      rw [show (t.eraseRow leaving).artificial = none from hNone] at hr
      cases hr

end Eliminate

/-- An objective that ignores a marker mentions it only if a restricted row does. -/
theorem Ignores.coefficient_eq_zero (hIgnores : t.Ignores issued marker) (h : t.Regular issued)
    (hDistinct : Set.InjOn Symbol.id issued)
    (hAbsent : ∀ e ∈ t.rows.entries, e.1.isExternal = false → e.2.coefficient marker = 0) :
    t.objective.coefficient marker = 0 := by
  have hSame := hIgnores (t.complete (Function.update 0 marker.id 1)) (t.complete 0)
    h.solved.satisfies_complete h.solved.satisfies_complete fun s hs hKind hne => ?_
  · rw [h.solved.objective_complete, h.solved.objective_complete] at hSame
    rw [Row.coefficient_eq_value_sub, hSame, sub_self]
  · rcases h.solved.complete_cases hDistinct hs 0 with ⟨r, hr, hValue⟩ | hValue
    · have hAvoids := (h.reduced.rows _ hr).avoids_iff.mpr (hAbsent _ hr hKind)
      rw [hValue, complete_of_mem hr]
      exact Row.value_congr fun c hc => Function.update_of_ne (hAvoids c hc) _ _
    · rw [hValue]
      rcases h.solved.complete_cases hDistinct hs (Function.update 0 marker.id 1)
        with ⟨r, hr, hOther⟩ | hOther
      · have hAvoids := (h.reduced.rows _ hr).avoids_iff.mpr (hAbsent _ hr hKind)
        have hZero : r.value (Function.update 0 marker.id 1) = r.value 0 :=
          Row.value_congr fun c hc => Function.update_of_ne (hAvoids c hc) _ _
        rw [hOther, hZero, ← complete_of_mem hr, hValue]
      · rw [hOther]
        exact Function.update_of_ne hne _ _

theorem Regular.dropped_basic (h : t.Regular issued) (hOrderly : t.Orderly issued)
    (hFeasible : t.Feasible) (hNone : t.artificial = none) (hRow : (marker, row) ∈ t.rows.entries) :
    Dropped issued t (t.eraseRow marker) marker where
  regular := ⟨h.solved.eraseRow, h.reduced.eraseRow, h.separate.eraseRow⟩
  orderly := hOrderly.mono rfl
  feasible := hFeasible.eraseRow
  artificial := hNone
  forward a x hSat := (h.solved.satisfies_eraseRow_iff_exists hRow).mpr ⟨x, hSat⟩
  backward a hSat := by
    obtain ⟨x, hx⟩ := (h.solved.satisfies_eraseRow_iff_exists hRow).mp hSat
    have hAvoids := (h.solved.nonbasic marker (SymbolMap.mem_keys_of_mem hRow)).objective
    exact ⟨x, hx, Row.value_congr fun c hc => (Function.update_of_ne (hAvoids c hc) _ _).symm⟩
  size := SymbolMap.length_erase (SymbolMap.get?_of_mem hRow)

theorem Regular.dropped_eliminate (h : t.Regular issued) (hOrderly : t.Orderly issued)
    (hFeasible : t.Feasible) (hNone : t.artificial = none)
    (hDistinct : Set.InjOn Symbol.id issued) (hIgnores : t.Ignores issued marker)
    (hRow : (leaving, row) ∈ t.rows.entries) (hLeaves : t.Leaves marker leaving row) :
    Dropped issued t (t.eliminate leaving row marker) marker where
  regular := ⟨h.solved.eliminate hRow, (h.reduced.eraseRow.substitute fun _ hr => hr.substitute).touch,
    h.separate_drop hRow hLeaves hNone (hIgnores.coefficient_eq_zero h hDistinct)⟩
  orderly := hOrderly.eliminate h.solved
  feasible := h.solved.feasible_drop hRow hLeaves hFeasible
  artificial := by
    rw [Tableau.eliminate, artificial_touch]
    exact congrArg (Option.map _) hNone
  forward a x hSat := (h.solved.satisfies_eliminate_iff_exists hRow hLeaves.coefficient_ne_zero).mpr
    ⟨x, hSat⟩
  backward a hSat := ⟨_, (h.solved.satisfies_eliminate hRow hLeaves.coefficient_ne_zero).mp hSat,
    value_eliminate_objective⟩
  size := length_eliminate hRow

/-- Dropping a marker erases its own row, or takes out the row that leaves with it. -/
theorem dropMarker?_cases (hDrop : t.dropMarker? marker = some u) :
    (∃ row, t.rows.get? marker = some row ∧ u = t.eraseRow marker) ∨
      (t.rows.get? marker = none ∧ ∃ leaving row,
        t.markerLeavingRow? marker = some (leaving, row) ∧ u = t.eliminate leaving row marker) := by
  rw [dropMarker?] at hDrop
  split at hDrop
  · rename_i row hGet
    exact .inl ⟨row, hGet, (Option.some.inj hDrop).symm⟩
  · rename_i hGet
    obtain ⟨⟨leaving, row⟩, hLeaving, hEliminate⟩ := Option.map_eq_some_iff.mp hDrop
    exact .inr ⟨hGet, leaving, row, hLeaving, hEliminate.symm⟩

theorem Regular.dropped (h : t.Regular issued) (hOrderly : t.Orderly issued)
    (hFeasible : t.Feasible) (hNone : t.artificial = none)
    (hDistinct : Set.InjOn Symbol.id issued) (hMarker : marker ∈ issued)
    (hIgnores : t.Ignores issued marker) (hDrop : t.dropMarker? marker = some u) :
    Dropped issued t u marker := by
  obtain ⟨row, hGet, rfl⟩ | ⟨_, leaving, row, hLeaving, rfl⟩ := dropMarker?_cases hDrop
  · exact h.dropped_basic hOrderly hFeasible hNone (h.solved.mem_of_get? hDistinct hMarker hGet)
  · obtain ⟨hRow, hLeaves⟩ := leaves_of_markerLeavingRow? hLeaving
    exact h.dropped_eliminate hOrderly hFeasible hNone hDistinct hIgnores hRow hLeaves

theorem mem_rows_eliminate_iff {e : Symbol × Row Rat} :
    e ∈ (t.eliminate leaving row marker).rows.entries ↔
      ∃ d, (d ∈ t.rows.entries ∧ d.1.id ≠ leaving.id) ∧
        e = (d.1, d.2.substitute marker (row.exchange leaving marker)) := by
  rw [eliminate, rows_touch, substitute, SymbolMap.mem_mapValues_iff]
  exact exists_congr fun d => and_congr_left' SymbolMap.mem_erase_iff

/-- Dropping a marker puts another symbol than a dummy into the row of a basic dummy. -/
def Loosens (t : Tableau Rat) (marker : Symbol) : Prop :=
  t.rows.get? marker = none ∧
    (∃ leaving row, t.markerLeavingRow? marker = some (leaving, row) ∧ leaving.isDummy = false) ∧
      ∃ e ∈ t.rows.entries, e.1.isDummy = true ∧ e.2.coefficient marker ≠ 0

section Loosening

variable (h : t.Regular issued) (hPinned : t.Pinned)

include h in
theorem Regular.mentions_leaving (hDistinct : Set.InjOn Symbol.id issued)
    (hRow : (leaving, row) ∈ t.rows.entries) (hNonzero : row.coefficient marker ≠ 0)
    {e : Symbol × Row Rat} (he : e ∈ t.rows.entries) (hne : e.1.id ≠ leaving.id)
    (hMarked : e.2.coefficient marker ≠ 0) :
    ∃ r, (e.1, r) ∈ (t.eliminate leaving row marker).rows.entries ∧ leaving ∈ r.cells.keys := by
  have hMem : (e.1, e.2.substitute marker (row.exchange leaving marker)) ∈
      (t.eliminate leaving row marker).rows.entries :=
    mem_rows_eliminate_iff.mpr ⟨e, ⟨he, hne⟩, rfl⟩
  have hKey := SymbolMap.mem_keys_of_mem hRow
  have hBasic := h.solved.leaving_coefficient hRow
  have hOld : e.2.coefficient leaving = 0 :=
    Row.coefficient_of_avoids ((h.solved.nonbasic leaving hKey).rows e he)
  have hNew : (e.2.substitute marker (row.exchange leaving marker)).coefficient leaving ≠ 0 := by
    rw [Row.coefficient_substitute_of_ne (Row.ne_of_coefficients hBasic hNonzero), hOld,
      Row.coefficient_exchange_leaving hBasic hNonzero, zero_add]
    exact mul_ne_zero hMarked (one_div_ne_zero hNonzero)
  refine ⟨_, hMem, SymbolMap.mem_keys_of_mem (Row.mem_of_coefficient_ne_zero hDistinct ?_
    (h.solved.keys leaving hKey) hNew)⟩
  exact (h.solved.eliminate hRow).columns.rows _ hMem

include h hPinned

theorem Pinned.eliminate_of_dummy (hRow : (leaving, row) ∈ t.rows.entries)
    (hKind : leaving.isDummy = true) (hNonzero : row.coefficient marker ≠ 0) :
    (t.eliminate leaving row marker).Pinned := by
  obtain ⟨hConstant, hDummies⟩ := hPinned _ hRow hKind
  have hExchange : (row.exchange leaving marker).AllColumns fun c => c.isDummy = true :=
    Row.AllColumns.exchange (hDummies.imp fun _ hc _ => hc) fun _ => hKind
  refine Pinned.mono (t := (t.eraseRow leaving).substitute marker (row.exchange leaving marker))
    (fun e he hDummy => ?_) (rows_touch _ _)
  obtain ⟨d, hd, rfl⟩ := SymbolMap.mem_mapValues_iff.mp he
  obtain ⟨hZero, hColumns⟩ := hPinned.eraseRow d hd hDummy
  refine ⟨?_, Row.AllColumns.substitute (hColumns.imp fun _ hc _ => hc) hExchange⟩
  rw [Row.constant_substitute, hZero,
    Row.constant_exchange (h.solved.leaving_coefficient hRow) hNonzero, hConstant, zero_div,
    neg_zero, mul_zero, add_zero]

/-- A pinned tableau stays pinned exactly if no basic dummy is loosened. -/
theorem Pinned.dropMarker?_iff (hDistinct : Set.InjOn Symbol.id issued)
    (hDrop : t.dropMarker? marker = some u) : u.Pinned ↔ ¬ t.Loosens marker := by
  obtain ⟨row, hGet, rfl⟩ | ⟨hGet, leaving, row, hLeaving, rfl⟩ := dropMarker?_cases hDrop
  · refine iff_of_true hPinned.eraseRow fun hLoosens => ?_
    cases hGet.symm.trans hLoosens.1
  · obtain ⟨hRow, hLeaves⟩ := leaves_of_markerLeavingRow? hLeaving
    have hNonzero := hLeaves.coefficient_ne_zero
    cases hKind : leaving.isDummy with
    | true =>
      refine iff_of_true (hPinned.eliminate_of_dummy h hRow hKind hNonzero) ?_
      rintro ⟨_, ⟨l, r, hOther, hNot⟩, _⟩
      obtain ⟨rfl, rfl⟩ := Prod.mk.inj (Option.some.inj (hLeaving.symm.trans hOther))
      rw [hKind] at hNot
      cases hNot
    | false =>
      constructor
      · rintro hAfter ⟨_, _, e, he, hDummy, hMarked⟩
        have hne : e.1.id ≠ leaving.id := by
          intro hId
          rw [SymbolMap.eq_of_mem_of_id_eq he hRow hId, hKind] at hDummy
          cases hDummy
        obtain ⟨r, hr, hCell⟩ := h.mentions_leaving hDistinct hRow hNonzero he hne hMarked
        have hDummyCell : leaving.isDummy = true := (hAfter _ hr hDummy).2 leaving hCell
        rw [hKind] at hDummyCell
        cases hDummyCell
      · intro hKept
        refine (hPinned.eraseRow.substitute_of_avoids fun e he hDummy => ?_).mono (rows_touch _ _)
        have he := (SymbolMap.mem_erase_iff.mp he).1
        refine (h.reduced.rows e he).avoids_iff.mpr ?_
        by_contra hMarked
        exact hKept ⟨hGet, ⟨leaving, row, hLeaving, hKind⟩, e, he, hDummy, hMarked⟩

end Loosening

/-- No dummy has a value other than zero. -/
def DummiesAtZero (t : Tableau Rat) : Prop :=
  ∀ e ∈ t.rows.entries, e.1.isDummy = true → e.2.constant = 0

/-- Dropping a marker moves the value of a basic dummy. -/
def Displaces (t : Tableau Rat) (marker : Symbol) : Prop :=
  t.rows.get? marker = none ∧ ∃ leaving row, t.markerLeavingRow? marker = some (leaving, row) ∧
    row.constant ≠ 0 ∧ ∃ e ∈ t.rows.entries, e.1.id ≠ leaving.id ∧ e.1.isDummy = true ∧
      e.2.coefficient marker ≠ 0

theorem DummiesAtZero.constant_substitute (h : t.DummiesAtZero) (hSolved : t.Solved issued)
    (hRow : (leaving, row) ∈ t.rows.entries) (hNonzero : row.coefficient marker ≠ 0)
    {e : Symbol × Row Rat} (he : e ∈ t.rows.entries) (hDummy : e.1.isDummy = true) :
    (e.2.substitute marker (row.exchange leaving marker)).constant =
      -(e.2.coefficient marker * (row.constant / row.coefficient marker)) := by
  rw [Row.constant_substitute, h e he hDummy, zero_add,
    Row.constant_exchange (hSolved.leaving_coefficient hRow) hNonzero, mul_neg]

theorem DummiesAtZero.dropMarker?_iff (h : t.DummiesAtZero) (hSolved : t.Solved issued)
    (hDrop : t.dropMarker? marker = some u) : u.DummiesAtZero ↔ ¬ t.Displaces marker := by
  obtain ⟨row, hGet, rfl⟩ | ⟨hGet, leaving, row, hLeaving, rfl⟩ := dropMarker?_cases hDrop
  · refine iff_of_true (fun e he => h e (SymbolMap.mem_erase_iff.mp he).1) fun hDisplaces => ?_
    cases hGet.symm.trans hDisplaces.1
  · obtain ⟨hRow, hLeaves⟩ := leaves_of_markerLeavingRow? hLeaving
    have hNonzero := hLeaves.coefficient_ne_zero
    constructor
    · rintro hAfter ⟨_, l, r, hOther, hConstant, e, he, hne, hDummy, hMarked⟩
      obtain ⟨rfl, rfl⟩ := Prod.mk.inj (Option.some.inj (hLeaving.symm.trans hOther))
      have hZero := hAfter _ (mem_rows_eliminate_iff.mpr ⟨e, ⟨he, hne⟩, rfl⟩) hDummy
      rw [h.constant_substitute hSolved hRow hNonzero he hDummy, neg_eq_zero] at hZero
      exact mul_ne_zero hMarked (div_ne_zero hConstant hNonzero) hZero
    · intro hKept e he hDummy
      obtain ⟨d, ⟨hd, hne⟩, rfl⟩ := mem_rows_eliminate_iff.mp he
      rw [h.constant_substitute hSolved hRow hNonzero hd hDummy, neg_eq_zero]
      by_contra hMoved
      obtain ⟨hMarked, hRatio⟩ := mul_ne_zero_iff.mp hMoved
      exact hKept ⟨hGet, leaving, row, hLeaving, fun hZero => hRatio (by rw [hZero, zero_div]),
        d, hd, hne, hDummy, hMarked⟩

theorem Pinned.not_loosens (h : t.Pinned) (hSolved : t.Solved issued)
    (hDistinct : Set.InjOn Symbol.id issued) (hMarker : marker ∈ issued)
    (hKind : marker.isDummy = false) : ¬ t.Loosens marker := by
  rintro ⟨_, _, e, he, hDummy, hMarked⟩
  have hAvoids := avoids_of_kind hDistinct (hSolved.columns.rows e he) hMarker (h e he hDummy).2
    (by simp [hKind])
  exact hMarked (Row.coefficient_of_avoids hAvoids)

end SoftSimplex.Tableau
