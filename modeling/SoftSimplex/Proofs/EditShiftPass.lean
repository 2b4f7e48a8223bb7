import SoftSimplex.Proofs.MovedConstants
import SoftSimplex.Proofs.Passes

/-!
# Moving the constant of an equation

However the move is made, the solutions are the old ones with one of the two error columns moved
against it. No cell changes, so the tableau stays regular and dual feasible, and every row that the
move takes below zero is queued for the dual pass.
-/

namespace SoftSimplex.Tableau
set_option autoImplicit false

variable {issued : Set Symbol} {t u : Tableau Rat} {row : Row Rat} {s marker : Symbol}
  {a : Nat → Rat} {v δ : Rat}

/-- Moves one column of an assignment. -/
def moveColumn (a : Nat → Rat) (s : Symbol) (δ : Rat) : Nat → Rat :=
  Function.update a s.id (a s.id + δ)

theorem value_moveColumn (r : Row Rat) (a : Nat → Rat) (s : Symbol) (δ : Rat) :
    r.value (moveColumn a s δ) = r.value a + r.coefficient s * δ := by
  rw [moveColumn, Row.value_update, add_sub_cancel_left]

theorem moveColumn_of_ne {n : Nat} (h : n ≠ s.id) : moveColumn a s δ n = a n :=
  Function.update_of_ne h _ _

theorem SameCells.regular (h : t.SameCells u) (ht : t.Regular issued) : u.Regular issued where
  solved := h.solved ht.solved
  reduced := h.allRows (fun _ _ hCells hr e he => hr e (hCells ▸ he)) ht.reduced
  separate :=
    { rows := fun e he hKind => by
        obtain ⟨r, hr, hCells⟩ := h.rows e he
        exact allColumns_of_cells_eq r e.2 hCells.symm (ht.separate.rows _ hr hKind)
      objective := h.objective ▸ ht.separate.objective
      artificial := fun r hr => ht.separate.artificial r (h.artificial ▸ hr) }

/-- What a move of a constant does. -/
structure Moved (issued : Set Symbol) (t u : Tableau Rat) (s : Symbol) (δ : Rat) : Prop where
  cells : t.SameCells u
  rows : ∀ a, u.Satisfies a ↔ t.Satisfies (moveColumn a s δ)
  size : u.rows.entries.length = t.rows.entries.length
  queued : u.Queued
  orderly : u.Orderly issued
  pinned : t.Pinned → u.Pinned

section Basic

variable (h : t.Regular issued) (hOrderly : t.Orderly issued) (hFeasible : t.Feasible)

include h in
theorem Regular.satisfies_addToBasic (hRow : (s, row) ∈ t.rows.entries) :
    (t.addToBasic s row v).Satisfies a ↔ t.Satisfies (moveColumn a s (-v)) := by
  have hAvoids := h.solved.nonbasic s (SymbolMap.mem_keys_of_mem hRow)
  have hValue : ∀ e ∈ t.rows.entries, e.2.value (moveColumn a s (-v)) = e.2.value a := by
    intro e he
    rw [value_moveColumn, Row.coefficient_of_avoids (hAvoids.rows e he), zero_mul, add_zero]
  have hSelf : moveColumn a s (-v) s.id = a s.id - v := by
    rw [moveColumn, Function.update_self, sub_eq_add_neg]
  constructor
  · intro hSat e he
    rw [hValue e he]
    by_cases hId : e.1.id = s.id
    · obtain rfl := SymbolMap.eq_of_mem_of_id_eq he hRow hId
      have hOwn : a s.id = (row.addConstant v).value a :=
        hSat (s, row.addConstant v) ((mem_addToBasic_iff hRow).mpr (.inl rfl))
      rw [Row.value_addConstant] at hOwn
      rw [hSelf]
      linarith
    · rw [moveColumn_of_ne hId]
      exact hSat e ((mem_addToBasic_iff hRow).mpr (.inr ⟨he, hId⟩))
  · intro hSat e he
    rcases (mem_addToBasic_iff hRow).mp he with rfl | ⟨he, hne⟩
    · have hOwn := hSat _ hRow
      rw [hValue _ hRow, hSelf] at hOwn
      rw [Row.value_addConstant]
      linarith
    · rw [← hValue e he, ← hSat e he, moveColumn_of_ne hne]

include h hOrderly hFeasible in
theorem Regular.moved_addToBasic (hRow : (s, row) ∈ t.rows.entries)
    (hRestricted : s.isExternal = false) (hKind : s.isDummy = false) (v : Rat) :
    Moved issued t (t.addToBasic s row v) s (-v) where
  cells := sameCells_addToBasic hRow
  rows _ := h.satisfies_addToBasic hRow
  size := by
    rw [rows_addToBasic]
    exact SymbolMap.length_replace _ (SymbolMap.get?_of_mem hRow)
  queued e he hRow' hBelow := by
    rcases (mem_addToBasic_iff hRow).mp he with rfl | ⟨he, _⟩
    · refine ⟨s, ?_, rfl⟩
      unfold addToBasic
      rw [if_pos hBelow]
      exact List.mem_cons_self
    · exact absurd (hFeasible e he hRow') (not_le.mpr hBelow)
  orderly := hOrderly.addToBasic (h.solved.keys s (SymbolMap.mem_keys_of_mem hRow)) hRestricted
  pinned hPinned e he hDummy := by
    rcases (mem_addToBasic_iff hRow).mp he with rfl | ⟨he, _⟩
    · rw [hKind] at hDummy
      cases hDummy
    · exact hPinned e he hDummy

end Basic

section Nonbasic

variable (h : t.Regular issued) (hOrderly : t.Orderly issued) (hFeasible : t.Feasible)

/-- What moving a column by a distance makes of a row. -/
def shiftRow (r : Row Rat) (marker : Symbol) (δ : Rat) : Row Rat :=
  r.addConstant (δ * r.coefficient marker)

theorem shiftRow_of_coefficient_eq_zero {r : Row Rat} (h : r.coefficient marker = 0) :
    shiftRow r marker δ = r := by
  simp [shiftRow, Row.addConstant, h]

theorem value_shiftRow {r : Row Rat} : (shiftRow r marker δ).value a =
    r.value (moveColumn a marker δ) := by
  rw [shiftRow, Row.value_addConstant, value_moveColumn, mul_comm]

theorem rows_moveMarker : (t.moveMarker marker δ).rows =
    t.rows.mapValues fun _ r => shiftRow r marker δ := by
  unfold moveMarker
  dsimp only
  congr 1
  funext _ r
  split
  · rfl
  · rename_i hSame
    refine (shiftRow_of_coefficient_eq_zero ?_).symm
    simpa using hSame

theorem mem_queued_moveMarker {e : Symbol × Row Rat} (he : e ∈ (t.moveMarker marker δ).rows.entries)
    (hKind : e.1.isExternal = false) (hMarked : e.2.coefficient marker ≠ 0)
    (hBelow : e.2.constant < 0) : e.1 ∈ (t.moveMarker marker δ).infeasible := by
  refine List.mem_append.mpr (.inl (List.mem_reverse.mpr (List.mem_filterMap.mpr ⟨e, he, ?_⟩)))
  simp [hKind, hMarked, hBelow]

include h hOrderly hFeasible in
theorem Regular.moved_moveMarker (hDistinct : Set.InjOn Symbol.id issued)
    (hMarker : marker ∈ issued) (hKind : marker.isDummy = false)
    (hNew : ∀ b ∈ t.rows.keys, b.id ≠ marker.id) (δ : Rat) :
    Moved issued t (t.moveMarker marker δ) marker δ where
  cells := sameCells_moveMarker
  rows a := by
    rw [Satisfies, rows_moveMarker]
    constructor
    · intro hSat e he
      rw [moveColumn_of_ne (hNew e.1 (SymbolMap.mem_keys_of_mem he)), ← value_shiftRow]
      exact hSat _ (SymbolMap.mem_mapValues_iff.mpr ⟨e, he, rfl⟩)
    · intro hSat e he
      obtain ⟨d, hd, rfl⟩ := SymbolMap.mem_mapValues_iff.mp he
      have hOld := hSat d hd
      rw [moveColumn_of_ne (hNew d.1 (SymbolMap.mem_keys_of_mem hd)), ← value_shiftRow] at hOld
      exact hOld
  size := by
    rw [rows_moveMarker]
    exact SymbolMap.length_mapValues _ _
  queued e he hRestricted hBelow := by
    refine ⟨e.1, mem_queued_moveMarker he hRestricted (fun hZero => ?_) hBelow, rfl⟩
    rw [rows_moveMarker] at he
    obtain ⟨d, hd, rfl⟩ := SymbolMap.mem_mapValues_iff.mp he
    have hOld : shiftRow d.2 marker δ = d.2 := shiftRow_of_coefficient_eq_zero hZero
    rw [show (d.1, shiftRow d.2 marker δ).2.constant = d.2.constant by rw [hOld]] at hBelow
    exact absurd (hFeasible d hd hRestricted) (not_le.mpr hBelow)
  orderly := hOrderly.moveMarker h.solved
  pinned hPinned e he hDummy := by
    rw [rows_moveMarker] at he
    obtain ⟨d, hd, rfl⟩ := SymbolMap.mem_mapValues_iff.mp he
    have hAvoids := avoids_of_kind hDistinct (h.solved.columns.rows d hd) hMarker
      (hPinned d hd hDummy).2 (by simp [hKind])
    dsimp only
    rw [shiftRow_of_coefficient_eq_zero (Row.coefficient_of_avoids hAvoids)]
    exact hPinned d hd hDummy

end Nonbasic

/-- Moving the constant of an equation by `-δ` moves its marker by `δ` or its other column by
`-δ`. -/
theorem Regular.moved_shiftEdit (h : t.Regular issued) (hOrderly : t.Orderly issued)
    (hFeasible : t.Feasible) (hDistinct : Set.InjOn Symbol.id issued) {tag : Tag}
    (hIssued : ∀ s ∈ tag.symbols, s ∈ issued) (hErrors : ∀ s ∈ tag.symbols, s.kind = .error)
    (δ : Rat) :
    Moved issued t (t.shiftEdit tag δ) tag.marker δ ∨
      ∃ s ∈ tag.other, Moved issued t (t.shiftEdit tag δ) s (-δ) := by
  have hRestricted : ∀ s ∈ tag.symbols, s.isExternal = false := fun s hs => by
    simp [Symbol.isExternal, hErrors s hs]
  have hNotDummy : ∀ s ∈ tag.symbols, s.isDummy = false := fun s hs => by
    simp [Symbol.isDummy, hErrors s hs]
  have hMarker : tag.marker ∈ tag.symbols := List.mem_cons_self
  rcases t.shiftEdit_cases tag δ with ⟨row, hGet, hShift⟩ | ⟨s, hs, row, hGet, hShift⟩ |
    ⟨hGet, hShift⟩ <;> rw [hShift]
  · have hMoved := h.moved_addToBasic hOrderly hFeasible
      (h.solved.mem_of_get? hDistinct (hIssued _ hMarker) hGet) (hRestricted _ hMarker)
      (hNotDummy _ hMarker) (-δ)
    rw [neg_neg] at hMoved
    exact .inl hMoved
  · have hMem : s ∈ tag.symbols := List.mem_cons_of_mem _ (Option.mem_toList.mpr hs)
    exact .inr ⟨s, hs, h.moved_addToBasic hOrderly hFeasible
      (h.solved.mem_of_get? hDistinct (hIssued _ hMem) hGet) (hRestricted _ hMem)
      (hNotDummy _ hMem) δ⟩
  · exact .inl (h.moved_moveMarker hOrderly hFeasible hDistinct (hIssued _ hMarker)
      (hNotDummy _ hMarker) (SymbolMap.get?_eq_none_iff.mp hGet) δ)

end SoftSimplex.Tableau
