import SoftSimplex.Proofs.PassCandidates
import SoftSimplex.Tableau.EditShift

/-!
# Moving a constant leaves the cells

A move of the constant of an equation changes the constants of rows only, so the tableau stays in
solved form. What it queues are restricted rows.
-/

namespace SoftSimplex.Tableau
set_option autoImplicit false

variable {α : Type} {issued : Set Symbol} {t u : Tableau α} {row : Row α} {s marker : Symbol}
  {v δ : α}

/-- The same tableau up to the constants of its rows. -/
structure SameCells (t u : Tableau α) : Prop where
  rows : ∀ e ∈ u.rows.entries, ∃ r, (e.1, r) ∈ t.rows.entries ∧ e.2.cells = r.cells
  objective : u.objective = t.objective
  artificial : u.artificial = t.artificial

theorem SameCells.keys (h : t.SameCells u) : ∀ b ∈ u.rows.keys, b ∈ t.rows.keys := by
  intro b hb
  obtain ⟨e, he, rfl⟩ := List.mem_map.mp hb
  obtain ⟨r, hr, _⟩ := h.rows e he
  exact SymbolMap.mem_keys_of_mem (e := (e.1, r)) hr

theorem SameCells.allRows (h : t.SameCells u) {P : Row α → Prop}
    (hP : ∀ r q : Row α, r.cells = q.cells → P r → P q) (ht : t.AllRows P) : u.AllRows P where
  rows e he := by
    obtain ⟨r, hr, hCells⟩ := h.rows e he
    exact hP r e.2 hCells.symm (ht.rows _ hr)
  objective := h.objective ▸ ht.objective
  artificial r hr := ht.artificial r (h.artificial ▸ hr)

theorem allColumns_of_cells_eq {P : Symbol → Prop} (r q : Row α) (h : r.cells = q.cells)
    (hr : r.AllColumns P) : q.AllColumns P :=
  fun c hc => hr c (h ▸ hc)

theorem SameCells.solved (h : t.SameCells u) (ht : t.Solved issued) : u.Solved issued where
  keys b hb := ht.keys b (h.keys b hb)
  columns := h.allRows allColumns_of_cells_eq ht.columns
  nonbasic b hb := h.allRows allColumns_of_cells_eq (ht.nonbasic b (h.keys b hb))

variable [Scalar α]

section Basic

theorem rows_addToBasic : (t.addToBasic s row v).rows = t.rows.insert s (row.addConstant v) := by
  unfold addToBasic
  dsimp only
  split <;> rfl

theorem touched_addToBasic : (t.addToBasic s row v).touched = t.touched := by
  unfold addToBasic
  dsimp only
  split <;> rfl

theorem mem_addToBasic_iff (hRow : (s, row) ∈ t.rows.entries) {e : Symbol × Row α} :
    e ∈ (t.addToBasic s row v).rows.entries ↔
      e = (s, row.addConstant v) ∨ e ∈ t.rows.entries ∧ e.1.id ≠ s.id := by
  rw [rows_addToBasic]
  exact SymbolMap.mem_replace_iff (SymbolMap.mem_keys_of_mem hRow)

theorem sameCells_addToBasic (hRow : (s, row) ∈ t.rows.entries) :
    t.SameCells (t.addToBasic s row v) where
  rows e he := by
    rcases (mem_addToBasic_iff hRow).mp he with rfl | ⟨he, _⟩
    · exact ⟨row, hRow, rfl⟩
    · exact ⟨e.2, he, rfl⟩
  objective := by
    unfold addToBasic
    dsimp only
    split <;> rfl
  artificial := by
    unfold addToBasic
    dsimp only
    split <;> rfl

theorem Orderly.addToBasic (h : t.Orderly issued) (hs : s ∈ issued)
    (hRestricted : s.isExternal = false) : (t.addToBasic s row v).Orderly issued := by
  intro c hc
  unfold Tableau.addToBasic at hc
  dsimp only at hc
  split at hc
  · rcases List.mem_cons.mp hc with rfl | hc
    · exact ⟨hs, hRestricted⟩
    · exact h c hc
  · exact h c hc

end Basic

section Marker

theorem sameCells_moveMarker : t.SameCells (t.moveMarker marker δ) where
  rows e he := by
    obtain ⟨d, hd, rfl⟩ := SymbolMap.mem_mapValues_iff.mp he
    refine ⟨d.2, hd, ?_⟩
    dsimp only
    split <;> rfl
  objective := rfl
  artificial := rfl

theorem mem_infeasible_moveMarker {c : Symbol} (hc : c ∈ (t.moveMarker marker δ).infeasible) :
    (c ∈ (t.moveMarker marker δ).rows.keys ∧ c.isExternal = false) ∨ c ∈ t.infeasible := by
  cases List.mem_append.mp hc with
  | inl hc =>
    obtain ⟨e, he, hSome⟩ := List.mem_filterMap.mp (List.mem_reverse.mp hc)
    simp only [Option.ite_none_right_eq_some, Option.some.injEq, Bool.and_eq_true,
      Bool.not_eq_true'] at hSome
    obtain ⟨⟨⟨hKind, _⟩, _⟩, rfl⟩ := hSome
    exact .inl ⟨SymbolMap.mem_keys_of_mem he, hKind⟩
  | inr hc =>
    exact .inr hc

theorem Orderly.moveMarker (h : t.Orderly issued) (hSolved : t.Solved issued) :
    (t.moveMarker marker δ).Orderly issued := by
  intro c hc
  rcases mem_infeasible_moveMarker hc with ⟨hKey, hRestricted⟩ | hc
  · exact ⟨hSolved.keys c (sameCells_moveMarker.keys c hKey), hRestricted⟩
  · exact h c hc

end Marker

/-- The move shows in the row of one of the two columns, or in all rows that have the marker. -/
theorem shiftEdit_cases (t : Tableau α) (tag : Tag) (δ : α) :
    (∃ row, t.rows.get? tag.marker = some row ∧
      t.shiftEdit tag δ = t.addToBasic tag.marker row (-δ)) ∨
    (∃ s ∈ tag.other, ∃ row, t.rows.get? s = some row ∧
      t.shiftEdit tag δ = t.addToBasic s row δ) ∨
    (t.rows.get? tag.marker = none ∧ t.shiftEdit tag δ = t.moveMarker tag.marker δ) := by
  rw [shiftEdit]
  cases hMarker : t.rows.get? tag.marker with
  | some row => exact .inl ⟨row, rfl, rfl⟩
  | none =>
    cases hOther : tag.other.bind fun s => (t.rows.get? s).map (s, ·) with
    | none => exact .inr (.inr ⟨rfl, rfl⟩)
    | some found =>
      obtain ⟨s, hs, hRow⟩ := Option.bind_eq_some_iff.mp hOther
      obtain ⟨row, hGet, rfl⟩ := Option.map_eq_some_iff.mp hRow
      exact .inr (.inl ⟨s, hs, row, hGet, rfl⟩)

end SoftSimplex.Tableau
