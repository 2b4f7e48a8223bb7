import SoftSimplex.Proofs.RatioTest
import SoftSimplex.Proofs.SolvedForm
import SoftSimplex.Tableau.Dual
import SoftSimplex.Tableau.MarkerRemoval

/-!
# What the passes choose from

The entering symbols are cells, the leaving rows are rows of the tableau, and the queue holds symbols
of restricted rows. No arithmetic is assumed: whatever the ratios compare to, the choice is one of the
candidates.
-/

namespace SoftSimplex.Tableau
set_option autoImplicit false

/-- The queue holds issued symbols of restricted rows only. -/
def Orderly {α : Type} (issued : Set Symbol) (t : Tableau α) : Prop :=
  ∀ s ∈ t.infeasible, s ∈ issued ∧ s.isExternal = false

/-- The queue holds issued symbols, those of rows only if the rows are restricted. -/
def QueuesRestricted {α : Type} (issued : Set Symbol) (t : Tableau α) : Prop :=
  ∀ s ∈ t.infeasible, s ∈ issued ∧ (s ∈ t.rows.keys → s.isExternal = false)

variable {α : Type} {issued : Set Symbol} {t u : Tableau α} {row : Row α}
  {leaving entering s : Symbol}

theorem Orderly.queuesRestricted (h : t.Orderly issued) : t.QueuesRestricted issued :=
  fun c hc => ⟨(h c hc).1, fun _ => (h c hc).2⟩

theorem Orderly.mono (h : t.Orderly issued) (hQueue : u.infeasible = t.infeasible) :
    u.Orderly issued :=
  fun c hc => h c (hQueue ▸ hc)

theorem Orderly.weaken {more : Set Symbol} (h : t.Orderly issued) (hMore : issued ⊆ more) :
    t.Orderly more :=
  fun c hc => ⟨hMore (h c hc).1, (h c hc).2⟩

theorem Orderly.requeue (h : t.Orderly issued) {rest : List Symbol}
    (hRest : ∀ c ∈ rest, c ∈ t.infeasible) : ({ t with infeasible := rest } : Tableau α).Orderly issued :=
  fun c hc => h c (hRest c hc)

theorem Solved.objectiveFor?_columns {r : Row α} {goal : Goal} (h : t.Solved issued)
    (hr : t.objectiveFor? goal = some r) : r.AllColumns (· ∈ issued) := by
  cases goal with
  | primary => exact Option.some.inj hr ▸ h.columns.objective
  | artificial => exact h.columns.artificial r hr

theorem Solved.objectiveFor?_nonbasic {r : Row α} {goal : Goal} (h : t.Solved issued)
    (hr : t.objectiveFor? goal = some r) : ∀ b ∈ t.rows.keys, r.AllColumns fun c => c.id ≠ b.id := by
  intro b hb
  cases goal with
  | primary => exact Option.some.inj hr ▸ (h.nonbasic b hb).objective
  | artificial => exact (h.nonbasic b hb).artificial r hr

variable [Scalar α]

section Queue

theorem mem_negativeRestricted_iff {rows : SymbolMap (Row α)} :
    s ∈ negativeRestricted rows ↔
      ∃ r, (s, r) ∈ rows.entries ∧ s.isExternal = false ∧ r.constant < 0 := by
  simp only [negativeRestricted, List.mem_filterMap, Option.ite_none_right_eq_some,
    Option.some.injEq, Bool.and_eq_true, Bool.not_eq_true', decide_eq_true_eq]
  constructor
  · rintro ⟨⟨_, r⟩, hr, hCondition, rfl⟩
    exact ⟨r, hr, hCondition⟩
  · rintro ⟨r, hr, hCondition⟩
    exact ⟨(s, r), hr, hCondition, rfl⟩

theorem infeasible_pivot : (t.pivot leaving row entering).infeasible =
    (negativeRestricted ((t.eraseRow leaving).substitute entering
      (row.exchange leaving entering)).rows).reverse ++ t.infeasible := by
  rw [Tableau.pivot, Tableau.insertRow, infeasible_touch, Tableau.eliminate, infeasible_touch]
  rfl

/-- What a substitution adds to the queue. -/
theorem Solved.mem_infeasible_substitute (h : t.Solved issued) {c : Symbol}
    (hc : c ∈ (t.substitute s row).infeasible) :
    (c ∈ issued ∧ c.isExternal = false) ∨ c ∈ t.infeasible := by
  rcases List.mem_append.mp hc with hc | hc
  · obtain ⟨r, hr, hKind, _⟩ := mem_negativeRestricted_iff.mp (List.mem_reverse.mp hc)
    have hKey : c ∈ (t.substitute s row).rows.keys := SymbolMap.mem_keys_of_mem hr
    rw [keys_substitute] at hKey
    exact .inl ⟨h.keys c hKey, hKind⟩
  · exact .inr hc

theorem Solved.mem_infeasible_pivot (h : t.Solved issued) {c : Symbol}
    (hc : c ∈ (t.pivot leaving row entering).infeasible) :
    (c ∈ issued ∧ c.isExternal = false) ∨ c ∈ t.infeasible := by
  rw [infeasible_pivot] at hc
  exact h.eraseRow.mem_infeasible_substitute hc

theorem Orderly.substitute (h : t.Orderly issued) (hSolved : t.Solved issued) :
    (t.substitute s row).Orderly issued := by
  intro c hc
  rcases hSolved.mem_infeasible_substitute hc with hc | hc
  · exact hc
  · exact h c hc

theorem Orderly.eliminate (h : t.Orderly issued) (hSolved : t.Solved issued) :
    (t.eliminate leaving row entering).Orderly issued := by
  have hErased : (t.eraseRow leaving).Orderly issued := h.mono rfl
  exact (hErased.substitute hSolved.eraseRow).mono (infeasible_touch _ leaving)

theorem Orderly.pivot (h : t.Orderly issued) (hSolved : t.Solved issued) :
    (t.pivot leaving row entering).Orderly issued :=
  (h.eliminate hSolved).mono (infeasible_touch _ entering)

theorem Orderly.install (h : t.Orderly issued) (hSolved : t.Solved issued) :
    (t.install row s).Orderly issued :=
  (h.substitute hSolved).mono (infeasible_touch _ s)

end Queue

section Candidates

theorem mem_upperBounds_iff {e : Symbol × Row α} {q : α} : (e, q) ∈ t.upperBounds entering ↔
    e ∈ t.rows.entries ∧ e.1.isExternal = false ∧ e.2.coefficient entering < 0 ∧
      q = -e.2.constant / e.2.coefficient entering := by
  simp only [upperBounds, List.mem_filterMap, Option.ite_none_right_eq_some, Option.some.injEq,
    Bool.and_eq_true, Bool.not_eq_true', decide_eq_true_eq, Prod.mk.injEq]
  constructor
  · rintro ⟨d, hd, ⟨hKind, hFalls⟩, rfl, rfl⟩
    exact ⟨hd, hKind, hFalls, rfl⟩
  · rintro ⟨he, hKind, hFalls, rfl⟩
    exact ⟨e, he, ⟨hKind, hFalls⟩, rfl, rfl⟩

theorem mem_rows_of_leavingRow? (h : t.leavingRow? entering = some (leaving, row)) :
    (leaving, row) ∈ t.rows.entries ∧ leaving.isExternal = false := by
  obtain ⟨q, hMem⟩ := LeastRatio.mem_of_choose h
  obtain ⟨hRow, hKind, _⟩ := mem_upperBounds_iff.mp hMem
  exact ⟨hRow, hKind⟩

theorem coefficient_neg_of_leavingRow? (h : t.leavingRow? entering = some (leaving, row)) :
    row.coefficient entering < 0 := by
  obtain ⟨q, hMem⟩ := LeastRatio.mem_of_choose h
  exact (mem_upperBounds_iff.mp hMem).2.2.1

theorem exists_of_entering? {goal : Goal} (h : t.entering? goal = some entering) :
    ∃ r, t.objectiveFor? goal = some r ∧ ∃ c, (entering, c) ∈ r.cells.entries ∧ c < 0 ∧
      entering.isDummy = false := by
  obtain ⟨r, hr, hFirst⟩ := Option.bind_eq_some_iff.mp h
  obtain ⟨e, he, rfl⟩ := Option.map_eq_some_iff.mp hFirst
  have hCondition := List.find?_some he
  simp only [Bool.and_eq_true, Bool.not_eq_true', decide_eq_true_eq] at hCondition
  exact ⟨r, hr, e.2, List.mem_of_find?_eq_some he, hCondition.1, hCondition.2⟩

theorem coefficient_neg_of_entering? {goal : Goal} {r : Row α} (h : t.entering? goal = some entering)
    (hr : t.objectiveFor? goal = some r) : r.coefficient entering < 0 := by
  obtain ⟨q, hq, c, hCell, hFalls, _⟩ := exists_of_entering? h
  obtain rfl : q = r := Option.some.inj (hq.symm.trans hr)
  rwa [Row.coefficient_of_mem hCell]

theorem Solved.entering_mem {goal : Goal} (h : t.Solved issued)
    (hEntering : t.entering? goal = some entering) : entering ∈ issued := by
  obtain ⟨r, hr, c, hCell, _⟩ := exists_of_entering? hEntering
  exact h.objectiveFor?_columns hr entering (SymbolMap.mem_keys_of_mem hCell)

theorem Solved.entering_nonbasic {goal : Goal} (h : t.Solved issued)
    (hEntering : t.entering? goal = some entering) : ∀ b ∈ t.rows.keys, b.id ≠ entering.id := by
  intro b hb
  obtain ⟨r, hr, c, hCell, _⟩ := exists_of_entering? hEntering
  exact (h.objectiveFor?_nonbasic hr b hb entering (SymbolMap.mem_keys_of_mem hCell)).symm

theorem mem_dualRatios_iff {q : α} : (s, q) ∈ t.dualRatios row ↔
    ∃ c, (s, c) ∈ row.cells.entries ∧ 0 < c ∧ s.isDummy = false ∧
      q = t.objective.coefficient s / c := by
  simp only [dualRatios, List.mem_filterMap, Option.ite_none_right_eq_some, Option.some.injEq,
    Bool.and_eq_true, Bool.not_eq_true', decide_eq_true_eq, Prod.mk.injEq]
  constructor
  · rintro ⟨⟨_, c⟩, hc, ⟨hRising, hKind⟩, rfl, rfl⟩
    exact ⟨c, hc, hRising, hKind, rfl⟩
  · rintro ⟨c, hc, hRising, hKind, rfl⟩
    exact ⟨(s, c), hc, ⟨hRising, hKind⟩, rfl, rfl⟩

theorem mem_cells_of_dualEntering? (h : t.dualEntering? row = some entering) :
    ∃ c, (entering, c) ∈ row.cells.entries ∧ 0 < c := by
  obtain ⟨q, hMem⟩ := LeastRatio.mem_of_choose h
  obtain ⟨c, hCell, hPositive, _⟩ := mem_dualRatios_iff.mp hMem
  exact ⟨c, hCell, hPositive⟩

theorem mem_rows_of_markerLeavingRow? {marker : Symbol}
    (h : t.markerLeavingRow? marker = some (leaving, row)) : (leaving, row) ∈ t.rows.entries := by
  have hMarked : ∀ e ∈ t.markerRows marker, e ∈ t.rows.entries := fun e he =>
    (List.mem_filter.mp he).1
  have hChosen : ∀ {rows : List (Symbol × Row α)} {ratio : Symbol × Row α → α},
      (∀ e ∈ rows, e ∈ t.markerRows marker) →
      LeastRatio.choose (rows.map fun e => (e, ratio e)) = some (leaving, row) →
      (leaving, row) ∈ t.rows.entries := by
    intro rows ratio hRows hChoose
    obtain ⟨q, hMem⟩ := LeastRatio.mem_of_choose hChoose
    obtain ⟨e, he, hPair⟩ := List.mem_map.mp hMem
    cases hPair
    exact hMarked _ (hRows _ he)
  simp only [markerLeavingRow?, List.partition_eq_filter_filter, Option.orElse_eq_orElse,
    Option.orElse_eq_or, Option.or_eq_some_iff] at h
  rcases h with hFalling | ⟨_, hRising | ⟨_, hExternal⟩⟩
  · exact hChosen (fun e he => (List.mem_filter.mp (List.mem_filter.mp he).1).1) hFalling
  · exact hChosen (fun e he => (List.mem_filter.mp (List.mem_filter.mp he).1).1) hRising
  · exact hMarked _ (List.mem_filter.mp (List.mem_of_getLast? hExternal)).1

end Candidates

end SoftSimplex.Tableau
