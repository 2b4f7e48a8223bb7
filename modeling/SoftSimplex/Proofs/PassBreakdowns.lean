import SoftSimplex.Proofs.PhaseOnePass
import SoftSimplex.Proofs.MarkerDrop

/-!
# How a pass can break down

A primal pass over an objective that stays above some bound always finds a row that limits the entering
column, because along an unlimited column the objective would fall without end. A dual pass over a
tableau that has an admissible solution always finds a column that may enter, because without one the
row could not be at least zero there. So only the limit on the pivots can end either of them.
-/

namespace SoftSimplex.Tableau
set_option autoImplicit false

/-- No restricted column is below zero. A dummy may be above. -/
def Restrained (issued : Set Symbol) (a : Nat → Rat) : Prop :=
  ∀ s ∈ issued, s.isExternal = false → 0 ≤ a s.id

/-- The objective of a goal stays above some bound at the restrained solutions. -/
def Bounded (issued : Set Symbol) (t : Tableau Rat) (goal : Goal) : Prop :=
  ∃ m, ∀ r, t.objectiveFor? goal = some r → ∀ a, t.Satisfies a → Restrained issued a → m ≤ r.value a

/-- Some solution has no restricted column below zero and every dummy at zero. -/
def Consistent (issued : Set Symbol) (t : Tableau Rat) : Prop :=
  ∃ a, t.Satisfies a ∧ Admissible issued a

variable {issued : Set Symbol} {t u : Tableau Rat} {row : Row Rat} {leaving entering s : Symbol}
  {goal : Goal} {cause : Breakdown}

theorem SameMeaning.value_objectiveFor? (h : t.SameMeaning u) {r : Row Rat}
    (hr : u.objectiveFor? goal = some r) {a : Nat → Rat} (hSat : t.Satisfies a) :
    ∃ q, t.objectiveFor? goal = some q ∧ r.value a = q.value a := by
  cases goal with
  | primary =>
    obtain rfl := Option.some.inj hr
    exact ⟨t.objective, rfl, h.objective a hSat⟩
  | artificial =>
    have hValue := h.artificial a hSat
    rw [show u.artificial = some r from hr, Option.map_some] at hValue
    obtain ⟨q, hq, hSame⟩ := Option.map_eq_some_iff.mp hValue.symm
    exact ⟨q, hq, hSame.symm⟩

theorem Bounded.of_sameMeaning (h : t.Bounded issued goal) (hSame : t.SameMeaning u) :
    u.Bounded issued goal := by
  obtain ⟨m, hm⟩ := h
  refine ⟨m, fun r hr a hSat ha => ?_⟩
  have hSat := (hSame.rows a).mp hSat
  obtain ⟨q, hq, hValue⟩ := hSame.value_objectiveFor? hr hSat
  rw [hValue]
  exact hm q hq a hSat ha

theorem Consistent.of_sameMeaning (h : t.Consistent issued) (hSame : t.SameMeaning u) :
    u.Consistent issued := by
  obtain ⟨a, hSat, ha⟩ := h
  exact ⟨a, (hSame.rows a).mpr hSat, ha⟩

section Primal

variable (hDistinct : Set.InjOn Symbol.id issued) (h : t.Regular issued) (hFeasible : t.Feasible)

/-- The solution that raises one non-basic column and leaves the others at zero. -/
def raise (t : Tableau Rat) (s : Symbol) (θ : Rat) : Nat → Rat :=
  t.complete (Function.update 0 s.id θ)

include hDistinct h hFeasible in
/-- If no restricted row falls with a column, the column can be raised as far as one likes. -/
theorem Feasible.restrained_raise
    (hFree : ∀ e ∈ t.rows.entries, e.1.isExternal = false → 0 ≤ e.2.coefficient entering)
    {θ : Rat} (hθ : 0 ≤ θ) : Restrained issued (t.raise entering θ) := by
  intro s hs hKind
  rw [raise]
  rcases h.solved.complete_cases hDistinct hs (Function.update 0 entering.id θ)
    with ⟨row, hRow, hValue⟩ | hValue
  · have hRises := mul_nonneg (hFree (s, row) hRow hKind) hθ
    have hConstant := hFeasible (s, row) hRow hKind
    rw [hValue, Row.value_update, ← row.constant_eq_value, Pi.zero_apply, sub_zero]
    exact add_nonneg hConstant hRises
  · rw [hValue, Function.update_apply]
    split
    · exact hθ
    · exact le_rfl

theorem Solved.value_raise (h : t.Solved issued) {r : Row Rat} (hr : t.objectiveFor? goal = some r)
    (θ : Rat) :
    r.value (t.raise entering θ) = r.constant + r.coefficient entering * θ := by
  rw [raise, value_complete (h.objectiveFor?_nonbasic hr), Row.value_update, ← r.constant_eq_value,
    Pi.zero_apply, sub_zero]

/-- A falling line goes below every bound. -/
theorem exists_below {c q : Rat} (hq : q < 0) (m : Rat) : ∃ θ, 0 ≤ θ ∧ c + q * θ < m := by
  refine ⟨max 0 ((m - c) / q) + 1, by positivity, ?_⟩
  have hReach : q * max 0 ((m - c) / q) ≤ m - c := by
    have hLe := mul_le_mul_of_nonpos_left (le_max_right 0 ((m - c) / q)) hq.le
    rwa [mul_div_cancel₀ _ hq.ne] at hLe
  linarith

include hDistinct h hFeasible in
theorem Bounded.exists_leavingRow? (hBounded : t.Bounded issued goal)
    (hEntering : t.entering? goal = some entering) : ∃ e, t.leavingRow? entering = some e := by
  have hSome : t.upperBounds entering ≠ [] := by
    intro hNoBound
    have hFree : ∀ e ∈ t.rows.entries, e.1.isExternal = false → 0 ≤ e.2.coefficient entering := by
      intro e he hKind
      by_contra hFalls
      have hMem := mem_upperBounds_iff.mpr ⟨he, hKind, not_le.mp hFalls, rfl⟩
      rw [hNoBound] at hMem
      cases hMem
    obtain ⟨r, hr, _⟩ := exists_of_entering? hEntering
    obtain ⟨m, hm⟩ := hBounded
    obtain ⟨θ, hθ, hBelow⟩ :=
      exists_below (c := r.constant) (coefficient_neg_of_entering? hEntering hr) m
    have hAbove := hm r hr (t.raise entering θ) h.solved.satisfies_complete
      (hFeasible.restrained_raise hDistinct h hFree hθ)
    rw [h.solved.value_raise hr] at hAbove
    exact absurd hBelow (not_lt.mpr hAbove)
  obtain ⟨e, _, hChoice, _⟩ := LeastRatio.exists_choose hSome
  exact ⟨e, hChoice⟩

include hDistinct h hFeasible in
theorem Bounded.optimizeWithin_breakdown (hBounded : t.Bounded issued goal) {limit budget : Nat}
    (hBroken : (optimizeWithin goal limit budget t).result = .error cause) :
    cause = .iterationLimitExceeded limit := by
  induction budget generalizing t with
  | zero =>
    rw [optimizeWithin] at hBroken
    split at hBroken
    · cases hBroken
    · exact (Except.error.inj hBroken).symm
  | succ left ih =>
    rw [optimizeWithin] at hBroken
    split at hBroken
    · cases hBroken
    · rename_i entering hEntering
      obtain ⟨⟨leaving, row⟩, hLeaving⟩ := hBounded.exists_leavingRow? hDistinct h hFeasible hEntering
      have hPivot := h.solved.exchangeable_primal hDistinct hEntering hLeaving
      simp only [hLeaving] at hBroken
      exact ih (h.pivot hPivot) (h.solved.feasible_primal hDistinct hEntering hLeaving hFeasible)
        (hBounded.of_sameMeaning (h.sameMeaning_pivot hPivot)) hBroken

end Primal

section Dual

/-- No restricted row mentions a variable of the caller. The external rows and the objective may. -/
def RowsSeparate {α : Type} (t : Tableau α) : Prop :=
  ∀ e ∈ t.rows.entries, e.1.isExternal = false → e.2.AllColumns fun c => c.isExternal = false

/-- A tableau whose violated rows a dual pass repairs if an admissible assignment solves the rows. -/
structure Mendable (issued : Set Symbol) (t : Tableau Rat) : Prop where
  solved : t.Solved issued
  separate : t.RowsSeparate
  restricted : t.QueuesRestricted issued

/-- Where some admissible assignment solves the rows, a restricted row below zero has a column that may
enter. -/
theorem Solved.exists_dualEntering? (h : t.Solved issued) (hConsistent : t.Consistent issued)
    (hRow : (leaving, row) ∈ t.rows.entries) (hRestricted : leaving.isExternal = false)
    (hKinds : row.AllColumns fun c => c.isExternal = false) (hBelow : row.constant < 0) :
    ∃ entering, t.dualEntering? row = some entering := by
  have hSome : t.dualRatios row ≠ [] := by
    intro hNoRatio
    have hFalls : ∀ e ∈ row.reverseSign.cells.entries, e.1.isDummy = false → 0 ≤ e.2 := by
      intro e he hKind
      obtain ⟨d, hd, rfl⟩ := SymbolMap.mem_mapValues_iff.mp he
      by_contra hRises
      have hMem : (d.1, _) ∈ t.dualRatios row :=
        mem_dualRatios_iff.mpr ⟨d.2, hd, neg_lt_zero.mp (not_le.mp hRises), hKind, rfl⟩
      rw [hNoRatio] at hMem
      cases hMem
    obtain ⟨a, hSat, ha⟩ := hConsistent
    have hIssued := h.keys leaving (SymbolMap.mem_keys_of_mem hRow)
    have hNonneg : 0 ≤ row.value a := (ha leaving hIssued).1 hRestricted |>.trans_eq (hSat _ hRow)
    have hBound : -row.constant ≤ row.reverseSign.value a := constant_le_value_of_admissible
      ((h.columns.rows _ hRow).mapCoefficients _) (hKinds.mapCoefficients _) hFalls ha
    rw [Row.value_reverseSign] at hBound
    linarith
  obtain ⟨entering, _, hChoice, _⟩ := LeastRatio.exists_choose hSome
  exact ⟨entering, hChoice⟩

section Step

variable (h : t.Solved issued) (hPivot : t.Exchangeable leaving row entering)
include h hPivot

theorem RowsSeparate.pivot (hSeparate : t.RowsSeparate) :
    (t.pivot leaving row entering).RowsSeparate := by
  have hExchange : (row.exchange leaving entering).AllColumns fun c => c.isExternal = false :=
    Row.AllColumns.exchange
      ((hSeparate _ hPivot.row_mem hPivot.restricted).imp fun _ hc _ => hc) fun _ => hPivot.restricted
  intro e he hKind
  rcases (SymbolMap.mem_insert_iff (h.entering_new_touched hPivot.toCrossing)).mp he with rfl | he
  · exact hExchange
  · rw [rows_touch, Tableau.eliminate, rows_touch] at he
    obtain ⟨d, hd, rfl⟩ := SymbolMap.mem_mapValues_iff.mp he
    have hOld := hSeparate d (SymbolMap.mem_erase_iff.mp hd).1 hKind
    exact Row.AllColumns.substitute (hOld.imp fun _ hc _ => hc) hExchange

/-- A row that enters is keyed by a cell of a restricted row, so its column is restricted. -/
theorem QueuesRestricted.pivot (hQueue : t.QueuesRestricted issued) (hSeparate : t.RowsSeparate) :
    (t.pivot leaving row entering).QueuesRestricted issued := by
  intro s hs
  rcases h.mem_infeasible_pivot hs with ⟨hIssued, hKind⟩ | hs
  · exact ⟨hIssued, fun _ => hKind⟩
  · obtain ⟨hIssued, hRestricted⟩ := hQueue s hs
    refine ⟨hIssued, fun hKey => ?_⟩
    rcases mem_keys_insertRow hKey with rfl | hKey
    · exact hSeparate _ hPivot.row_mem hPivot.restricted s hPivot.entering_mem
    · rw [rows_touch, keys_eliminate] at hKey
      exact hRestricted (mem_keys_eraseRow hKey).1

end Step

theorem Mendable.requeue (h : t.Mendable issued) {rest : List Symbol}
    (hRest : ∀ s ∈ rest, s ∈ t.infeasible) :
    ({ t with infeasible := rest } : Tableau Rat).Mendable issued where
  solved := h.solved.mono rfl rfl fun _ hr => hr
  separate := h.separate
  restricted s hs := h.restricted s (hRest s hs)

theorem Mendable.pivot (h : t.Mendable issued) (hPivot : t.Exchangeable leaving row entering) :
    (t.pivot leaving row entering).Mendable issued where
  solved := h.solved.pivot hPivot.row_mem hPivot.entering_mem
  separate := h.separate.pivot h.solved hPivot
  restricted := h.restricted.pivot h.solved hPivot h.separate

theorem Regular.mendable (h : t.Regular issued) (hOrderly : t.Orderly issued) : t.Mendable issued :=
  ⟨h.solved, h.separate.rows, hOrderly.queuesRestricted⟩

variable (hDistinct : Set.InjOn Symbol.id issued)
include hDistinct

/-- One step of a dual pass, measured against the tableau that the pass starts from. -/
theorem Mendable.step {rest : List Symbol} (hKept : u.Mendable issued ∧ t.SameMeaning u)
    (hNext : nextViolated? u.rows u.infeasible = some (leaving, row, rest))
    (hEntering : ({ u with infeasible := rest } : Tableau Rat).dualEntering? row = some entering) :
    (({ u with infeasible := rest } : Tableau Rat).pivot leaving row entering).Mendable issued ∧
      t.SameMeaning (({ u with infeasible := rest } : Tableau Rat).pivot leaving row entering) := by
  obtain ⟨h, hSame⟩ := hKept
  obtain ⟨hRow, hKind, _⟩ := h.restricted.violated hDistinct h.solved hNext
  obtain ⟨_, hPositive, _⟩ := exists_of_dualEntering? hEntering
  have hPopped := h.requeue (nextViolated?_eq_some hNext).2.1
  have hPivot := exchangeable_dual (t := { u with infeasible := rest }) hRow hEntering hKind
  constructor
  · exact hPopped.pivot hPivot
  · apply hSame.trans
    apply (SameMeaning.requeue u rest).trans
    exact hPopped.solved.sameMeaning_pivot hPivot.toCrossing hPositive.ne'

/-- A dual pass that breaks down has met its limit, or there is nothing that it could have found. -/
theorem Mendable.dualOptimizeWithin_breakdown (h : t.Mendable issued) {limit budget : Nat}
    (hBroken : (dualOptimizeWithin limit budget t).result = .error cause) :
    cause = .iterationLimitExceeded limit ∨ ¬ t.Consistent issued := by
  have hStart : t.Mendable issued ∧ t.SameMeaning t := ⟨h, .refl t⟩
  rcases Tableau.dualOptimizeWithin_breakdown (fun _ _ _ _ _ => Mendable.step hDistinct) hStart hBroken
    with hLimit | ⟨v, leaving, row, rest, ⟨hKept, hSame⟩, hNext, hNone⟩
  · exact .inl hLimit
  · right
    intro hConsistent
    obtain ⟨hRow, hKind, hBelow⟩ := hKept.restricted.violated hDistinct hKept.solved hNext
    have hPopped := hKept.requeue (nextViolated?_eq_some hNext).2.1
    have hStill := hConsistent.of_sameMeaning (hSame.trans (.requeue v rest))
    obtain ⟨entering, hEntering⟩ := hPopped.solved.exists_dualEntering? hStill hRow hKind
      (hKept.separate _ hRow hKind) hBelow
    cases hNone.symm.trans hEntering

theorem Consistent.dualOptimizeWithin_breakdown (h : t.Regular issued) (hOrderly : t.Orderly issued)
    (hConsistent : t.Consistent issued) {limit budget : Nat}
    (hBroken : (dualOptimizeWithin limit budget t).result = .error cause) :
    cause = .iterationLimitExceeded limit :=
  ((h.mendable hOrderly).dualOptimizeWithin_breakdown hDistinct hBroken).resolve_right
    (not_not_intro hConsistent)

end Dual

section Settling

variable (hDistinct : Set.InjOn Symbol.id issued) (h : t.Regular issued)
  (hOrderly : t.Orderly issued) (hFeasible : t.Feasible)
include hDistinct h hOrderly hFeasible

/-- In a feasible tableau the queue holds nothing to repair. -/
theorem Feasible.nextViolated?_eq_none : nextViolated? t.rows t.infeasible = none := by
  cases hNext : nextViolated? t.rows t.infeasible with
  | none => rfl
  | some next =>
    obtain ⟨leaving, row, rest⟩ := next
    obtain ⟨hRow, hRestricted, hBelow⟩ := hOrderly.queuesRestricted.violated hDistinct h.solved hNext
    exact absurd hBelow (not_lt.mpr (hFeasible _ hRow hRestricted))

theorem Feasible.dualOptimize_eq (limit : Nat) :
    t.dualOptimize limit = .done () { t with infeasible := [] } := by
  have hNone := hFeasible.nextViolated?_eq_none hDistinct h hOrderly
  rw [dualOptimize]
  cases limit with
  | zero => rw [dualOptimizeWithin, hNone]
  | succ left => rw [dualOptimizeWithin, hNone]

theorem Bounded.settle_breakdown (hBounded : t.Bounded issued .primary) {limit : Nat}
    (hBroken : t.settle limit = ⟨.error cause, u⟩) : cause = .iterationLimitExceeded limit := by
  obtain ⟨hKept, hStill, _⟩ := optimize_keeps hDistinct .primary limit h hOrderly hFeasible
  rw [settle] at hBroken
  split at hBroken
  · rename_i v hOptimize
    rw [hOptimize] at hKept hStill
    rw [hStill.dualOptimize_eq hDistinct hKept.regular hKept.orderly] at hBroken
    cases hBroken
  · exact hBounded.optimizeWithin_breakdown hDistinct h hFeasible (congrArg Attempt.result hBroken)

end Settling

section PhaseOne

variable {fresh : Symbol}

theorem Regular.bounded_phaseOneStart (h : t.Regular issued) (hFresh : Fresh issued fresh) :
    (t.phaseOneStart fresh row).Bounded (insert fresh issued) .artificial := by
  refine ⟨0, fun r hr a hSat ha => ?_⟩
  obtain rfl : row = r := Option.some.inj hr
  rw [← ((h.satisfies_phaseOneStart hFresh).mp hSat).1]
  exact ha fresh (Set.mem_insert _ _) hFresh.restricted

variable (hDistinct : Set.InjOn Symbol.id issued) (h : t.Regular issued) (hFeasible : t.Feasible)
  (hRow : t.Addable issued row) (hKinds : row.AllColumns fun c => c.isExternal = false)
  (hConstant : 0 ≤ row.constant) (hFresh : Fresh issued fresh)
include hDistinct h hFeasible hRow hKinds hConstant hFresh

theorem Regular.insertArtificially_breakdown {limit : Nat}
    (hBroken : (t.insertArtificially limit fresh row).result = .error cause) :
    cause = .iterationLimitExceeded limit := by
  have hStart : (t.phaseOneStart fresh row).Feasible :=
    (hFeasible.insertRow (h.keys_ne_fresh hFresh) fun _ => hConstant).mono rfl
  rw [insertArtificially] at hBroken
  dsimp only at hBroken
  split at hBroken
  · rename_i first u hOptimize
    obtain rfl : first = cause := Except.error.inj hBroken
    exact (h.bounded_phaseOneStart hFresh).optimizeWithin_breakdown (hFresh.distinct hDistinct)
      (h.phaseOneStart hRow hFresh hKinds) hStart (congrArg Attempt.result hOptimize)
  · cases hBroken

end PhaseOne

section Marker

variable {marker : Symbol}

/-- Where no row may leave for a marker, no row mentions it. -/
theorem coefficient_of_markerLeavingRow? (hLeaving : t.markerLeavingRow? marker = none)
    {e : Symbol × Row Rat} (he : e ∈ t.rows.entries) : e.2.coefficient marker = 0 := by
  rw [markerLeavingRow?_eq, Option.or_eq_none_iff, Option.or_eq_none_iff] at hLeaving
  obtain ⟨hFalling, hRising, hExternal⟩ := hLeaving
  by_contra hMarked
  cases hKind : e.1.isExternal with
  | true =>
    have hMem : e ∈ (t.markerRows marker).filter fun e => e.1.isExternal :=
      List.mem_filter.mpr ⟨mem_markerRows_iff.mpr ⟨he, hMarked⟩, hKind⟩
    rw [List.getLast?_eq_none_iff.mp hExternal] at hMem
    cases hMem
  | false =>
    cases lt_or_gt_of_ne hMarked with
    | inl hNegative =>
      have hMem := mem_fallingRatios_iff.mpr ⟨he, hKind, hNegative, rfl⟩
      rw [LeastRatio.eq_nil_of_choose hFalling] at hMem
      cases hMem
    | inr hPositive =>
      have hMem := mem_risingRatios_iff.mpr ⟨he, hKind, hPositive, rfl⟩
      rw [LeastRatio.eq_nil_of_choose hRising] at hMem
      cases hMem

/-- A marker that no row mentions could take any value. -/
theorem Regular.exists_dropMarker? (h : t.Regular issued)
    (hTied : ¬ ∀ a x, t.Satisfies a → t.Satisfies (Function.update a marker.id x)) :
    ∃ u, t.dropMarker? marker = some u := by
  rw [dropMarker?]
  cases hGet : t.rows.get? marker with
  | some row => exact ⟨_, rfl⟩
  | none =>
    dsimp only
    cases hLeaving : t.markerLeavingRow? marker with
    | some e => exact ⟨_, rfl⟩
    | none =>
      refine absurd (fun a x hSat => ?_) hTied
      refine (satisfies_update x (SymbolMap.get?_eq_none_iff.mp hGet) fun e he => ?_).mpr hSat
      exact (h.reduced.rows e he).avoids_iff.mpr (coefficient_of_markerLeavingRow? hLeaving he)

end Marker

end SoftSimplex.Tableau
