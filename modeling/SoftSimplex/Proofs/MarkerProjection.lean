import SoftSimplex.Proofs.PrimalTermination

/-!
# Dropping a marker projects the solutions

A marker that is not basic leaves with one row of those that mention it. Raising it is safe as far as
the restricted rows that fall with it allow, and where none falls it can be lowered as far as the rising
ones allow, so taking the least ratio of the one bucket or the other keeps every restricted constant at
zero or above, whatever the signs in the other rows are. Where no restricted row mentions the marker an
external row leaves, and the restricted rows stay as they are.
-/

namespace SoftSimplex.Tableau
set_option autoImplicit false

variable {issued : Set Symbol} {t : Tableau Rat} {marker : Symbol}

theorem exists_markerLeavingRow? (hCell : ∃ e ∈ t.rows.entries, e.2.coefficient marker ≠ 0) :
    ∃ leaving row, t.markerLeavingRow? marker = some (leaving, row) := by
  obtain ⟨e, he, hNonzero⟩ := hCell
  cases hLeaving : t.markerLeavingRow? marker with
  | none => exact absurd (coefficient_of_markerLeavingRow? hLeaving he) hNonzero
  | some e => exact ⟨e.1, e.2, rfl⟩

/-- The marker is gone, the rest is feasible and in solved form with one row fewer, and its solutions are
those of the old rows with the marker left out. Rows hold no zero cells, so a row with a cell of the
marker is a row in which its coefficient is not zero. -/
theorem dropMarker?_projects (h : t.Solved issued) (hFeasible : t.Feasible)
    (hNonbasic : ∀ b ∈ t.rows.keys, b.id ≠ marker.id)
    (hCell : ∃ e ∈ t.rows.entries, e.2.coefficient marker ≠ 0) :
    ∃ u, t.dropMarker? marker = some u ∧ (∀ b ∈ u.rows.keys, b.id ≠ marker.id) ∧
      (u.AllRows fun r => r.AllColumns fun c => c.id ≠ marker.id) ∧ u.Feasible ∧ u.Solved issued ∧
      u.rows.entries.length + 1 = t.rows.entries.length ∧
      ∀ a, u.Satisfies a ↔ ∃ x, t.Satisfies (Function.update a marker.id x) := by
  obtain ⟨leaving, row, hLeaving⟩ := exists_markerLeavingRow? hCell
  obtain ⟨hRow, hLeaves⟩ := leaves_of_markerLeavingRow? hLeaving
  have hDrop : t.dropMarker? marker = some (t.eliminate leaving row marker) := by
    rw [dropMarker?, SymbolMap.get?_eq_none_iff.mpr hNonbasic]
    dsimp only
    rw [hLeaving, Option.map_some]
  have hKeys : ∀ b ∈ (t.eliminate leaving row marker).rows.keys, b.id ≠ marker.id := by
    intro b hb
    rw [keys_eliminate] at hb
    exact hNonbasic b (mem_keys_eraseRow hb).1
  refine ⟨t.eliminate leaving row marker, hDrop, hKeys, h.eliminate_avoids hRow, ?_, ?_, ?_, fun a => ?_⟩
  · exact h.feasible_drop hRow hLeaves hFeasible
  · exact h.eliminate hRow
  · exact length_eliminate hRow
  · exact h.satisfies_eliminate_iff_exists hRow hLeaves.coefficient_ne_zero

/-- A tableau in which two rows fall with the first column at the same ratio, one rises with it, and an
external row rises too. -/
def mixedCorner : Tableau Rat :=
  (((({ objective := slackRow 0 [1, 3] } : Tableau Rat).insertRow ⟨.slack, 4⟩
    (slackRow 2 [-1, 1])).insertRow ⟨.error, 5⟩ (slackRow 4 [-2])).insertRow ⟨.slack, 6⟩
      (slackRow 3 [5, -1])).insertRow ⟨.external, 7⟩ (slackRow 1 [1])

theorem dropMarker?_projects_mixedCorner :
    ∃ u, mixedCorner.dropMarker? ⟨.slack, 1⟩ = some u ∧
      u.rows.keys = [⟨.error, 5⟩, ⟨.slack, 6⟩, ⟨.external, 7⟩] ∧ u.Feasible ∧
      ∀ a, u.Satisfies a ↔ ∃ x, mixedCorner.Satisfies (Function.update a 1 x) := by
  have hSolved := solved_over_symbols (t := mixedCorner) (by decide +kernel)
  have hFeasible : mixedCorner.Feasible := by
    unfold Feasible
    decide +kernel
  have hNonbasic : ∀ b ∈ mixedCorner.rows.keys, b.id ≠ (⟨.slack, 1⟩ : Symbol).id := by
    decide +kernel
  have hCell : ∃ e ∈ mixedCorner.rows.entries, e.2.coefficient ⟨.slack, 1⟩ ≠ 0 := by
    decide +kernel
  obtain ⟨u, hDrop, _, _, hStill, _, _, hSame⟩ :=
    dropMarker?_projects hSolved hFeasible hNonbasic hCell
  have hKeys : (mixedCorner.dropMarker? ⟨.slack, 1⟩).map (fun u => u.rows.keys) =
      some [⟨.error, 5⟩, ⟨.slack, 6⟩, ⟨.external, 7⟩] := by
    decide +kernel
  rw [hDrop] at hKeys
  exact ⟨u, hDrop, Option.some.inj hKeys, hStill, hSame⟩

end SoftSimplex.Tableau
