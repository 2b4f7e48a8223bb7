import SoftSimplex.Proofs.SolvedForm

/-!
# Which kinds of symbols meet

Two facts about kinds keep the passes honest. The symbols of the caller's variables stay out of the
restricted rows and of the objectives, so every cell that a ratio test looks at is itself restricted.
And as long as a basic dummy has a row of dummies only, with constant zero, the dummies stand for
zero, because no pivot lets a dummy enter.
-/

namespace SoftSimplex.Tableau
set_option autoImplicit false

variable {α : Type}

/-- No restricted row and no objective mentions a variable of the caller. -/
structure Separate (t : Tableau α) : Prop where
  rows : ∀ e ∈ t.rows.entries, e.1.isExternal = false →
    e.2.AllColumns fun c => c.isExternal = false
  objective : t.objective.AllColumns fun c => c.isExternal = false
  artificial : ∀ r ∈ t.artificial, r.AllColumns fun c => c.isExternal = false

/-- Every basic dummy is a combination of other dummies. -/
def Pinned [Zero α] (t : Tableau α) : Prop :=
  ∀ e ∈ t.rows.entries, e.1.isDummy = true →
    e.2.constant = 0 ∧ e.2.AllColumns fun c => c.isDummy = true

theorem avoids_of_kind {issued : Set Symbol} {r : Row α} {s : Symbol} {P : Symbol → Prop}
    (hDistinct : Set.InjOn Symbol.id issued) (hIssued : r.AllColumns (· ∈ issued))
    (hs : s ∈ issued) (hP : r.AllColumns P) (hNot : ¬ P s) :
    r.AllColumns fun c => c.id ≠ s.id := by
  intro c hc hId
  exact hNot (hDistinct (hIssued c hc) hs hId ▸ hP c hc)

section Frame

variable {t u : Tableau α} {row : Row α} {s : Symbol}

theorem Separate.mono (h : t.Separate) (hRows : u.rows = t.rows)
    (hObjective : u.objective = t.objective) (hArtificial : ∀ r ∈ u.artificial, r ∈ t.artificial) :
    u.Separate where
  rows := hRows ▸ h.rows
  objective := hObjective ▸ h.objective
  artificial r hr := h.artificial r (hArtificial r hr)

theorem Separate.touch (h : t.Separate) : (t.touch s).Separate :=
  h.mono (rows_touch t s) (objective_touch t s) fun _ hr => artificial_touch t s ▸ hr

theorem Separate.eraseRow (h : t.Separate) : (t.eraseRow s).Separate where
  rows e he := h.rows e (SymbolMap.mem_erase_iff.mp he).1
  objective := h.objective
  artificial := h.artificial

theorem Separate.insertRow (h : t.Separate) (hNew : ∀ b ∈ t.rows.keys, b.id ≠ s.id)
    (hRow : s.isExternal = false → row.AllColumns fun c => c.isExternal = false) :
    (t.insertRow s row).Separate where
  rows e he := by
    rcases (SymbolMap.mem_insert_iff hNew).mp he with rfl | he
    · exact hRow
    · exact h.rows e he
  objective := h.objective
  artificial := h.artificial

theorem Separate.strike (h : t.Separate) (hNone : t.artificial = none) :
    (t.strike s).Separate where
  rows e he hKind := by
    obtain ⟨d, hd, rfl⟩ := SymbolMap.mem_mapValues_iff.mp he
    exact Row.AllColumns.remove ((h.rows d hd hKind).imp fun _ hc _ => hc)
  objective := Row.AllColumns.remove (h.objective.imp fun _ hc _ => hc)
  artificial r hr := by
    rw [show (t.strike s).artificial = none from hNone] at hr
    cases hr

variable [Zero α]

theorem Pinned.mono (h : t.Pinned) (hRows : u.rows = t.rows) : u.Pinned := by
  intro e he
  exact h e (hRows ▸ he)

theorem Pinned.eraseRow (h : t.Pinned) : (t.eraseRow s).Pinned :=
  fun e he => h e (SymbolMap.mem_erase_iff.mp he).1

theorem Pinned.insertRow (h : t.Pinned) (hNew : ∀ b ∈ t.rows.keys, b.id ≠ s.id)
    (hRow : s.isDummy = true → row.constant = 0 ∧ row.AllColumns fun c => c.isDummy = true) :
    (t.insertRow s row).Pinned := by
  intro e he
  rcases (SymbolMap.mem_insert_iff hNew).mp he with rfl | he
  · exact hRow
  · exact h e he

theorem Pinned.strike (h : t.Pinned) : (t.strike s).Pinned := by
  intro e he hKind
  obtain ⟨d, hd, rfl⟩ := SymbolMap.mem_mapValues_iff.mp he
  exact ⟨(h d hd hKind).1, Row.AllColumns.remove ((h d hd hKind).2.imp fun _ hc _ => hc)⟩

end Frame

variable [Scalar α] {issued : Set Symbol} {t : Tableau α} {row : Row α}
  {leaving entering s : Symbol}

/-- A row of the tableau and a column that it has a cell for. -/
structure Crossing (t : Tableau α) (leaving : Symbol) (row : Row α) (entering : Symbol) : Prop where
  row_mem : (leaving, row) ∈ t.rows.entries
  entering_mem : entering ∈ row.cells.keys

/-- A pivot as the operations make them: a restricted row leaves and no dummy enters. -/
structure Exchangeable (t : Tableau α) (leaving : Symbol) (row : Row α) (entering : Symbol) : Prop
    extends Crossing t leaving row entering where
  restricted : leaving.isExternal = false
  not_dummy : entering.isDummy = false

theorem Separate.substitute (h : t.Separate) (hRow : row.AllColumns fun c => c.isExternal = false) :
    (t.substitute s row).Separate where
  rows e he hKind := by
    obtain ⟨d, hd, rfl⟩ := SymbolMap.mem_mapValues_iff.mp he
    exact Row.AllColumns.substitute ((h.rows d hd hKind).imp fun _ hc _ => hc) hRow
  objective := Row.AllColumns.substitute (h.objective.imp fun _ hc _ => hc) hRow
  artificial r hr := by
    obtain ⟨d, hd, rfl⟩ := Option.map_eq_some_iff.mp hr
    exact Row.AllColumns.substitute ((h.artificial d hd).imp fun _ hc _ => hc) hRow

/-- A symbol that the restricted part does not mention may be replaced by any row. -/
theorem Separate.substitute_of_avoids (h : t.Separate)
    (hRows : ∀ e ∈ t.rows.entries, e.1.isExternal = false → e.2.AllColumns fun c => c.id ≠ s.id)
    (hObjective : t.objective.AllColumns fun c => c.id ≠ s.id)
    (hArtificial : ∀ r ∈ t.artificial, r.AllColumns fun c => c.id ≠ s.id) :
    (t.substitute s row).Separate where
  rows e he hKind := by
    obtain ⟨d, hd, rfl⟩ := SymbolMap.mem_mapValues_iff.mp he
    rw [Row.substitute_of_avoids (hRows d hd hKind)]
    exact h.rows d hd hKind
  objective := by
    rw [show (t.substitute s row).objective = _ from Row.substitute_of_avoids hObjective]
    exact h.objective
  artificial r hr := by
    obtain ⟨d, hd, rfl⟩ := Option.map_eq_some_iff.mp hr
    rw [Row.substitute_of_avoids (hArtificial d hd)]
    exact h.artificial d hd

theorem Pinned.substitute_of_avoids (h : t.Pinned)
    (hRows : ∀ e ∈ t.rows.entries, e.1.isDummy = true → e.2.AllColumns fun c => c.id ≠ s.id) :
    (t.substitute s row).Pinned := by
  intro e he hKind
  obtain ⟨d, hd, rfl⟩ := SymbolMap.mem_mapValues_iff.mp he
  rw [Row.substitute_of_avoids (hRows d hd hKind)]
  exact h d hd hKind

section Restricted

variable (hLeaving : leaving.isExternal = false) (hRow : (leaving, row) ∈ t.rows.entries)
include hLeaving hRow

theorem Separate.exchange_columns (h : t.Separate) :
    (row.exchange leaving entering).AllColumns fun c => c.isExternal = false :=
  Row.AllColumns.exchange ((h.rows _ hRow hLeaving).imp fun _ hc _ => hc) fun _ => hLeaving

theorem Separate.eliminate (h : t.Separate) : (t.eliminate leaving row entering).Separate :=
  (h.eraseRow.substitute (h.exchange_columns hLeaving hRow)).touch

end Restricted

section Crossing

variable (hSolved : t.Solved issued) (hPivot : t.Crossing leaving row entering)
include hSolved hPivot

theorem Solved.entering_new : ∀ b ∈ (t.eliminate leaving row entering).rows.keys,
    b.id ≠ entering.id := by
  intro b hb
  rw [keys_eliminate] at hb
  exact ((hSolved.nonbasic b (mem_keys_eraseRow hb).1).rows _ hPivot.row_mem _
    hPivot.entering_mem).symm

theorem Solved.keys_pivot : ∀ b ∈ (t.pivot leaving row entering).rows.keys, b.id ≠ leaving.id := by
  intro b hb
  rcases mem_keys_insertRow hb with rfl | hb
  · exact (hSolved.nonbasic leaving (SymbolMap.mem_keys_of_mem hPivot.row_mem)).rows _
      hPivot.row_mem _ hPivot.entering_mem
  · rw [rows_touch, keys_eliminate] at hb
    exact (mem_keys_eraseRow hb).2

end Crossing

section Exchangeable

variable (hSolved : t.Solved issued) (hPivot : t.Exchangeable leaving row entering)
include hSolved hPivot

theorem Separate.pivot (h : t.Separate) : (t.pivot leaving row entering).Separate := by
  refine (h.eliminate hPivot.restricted hPivot.row_mem).touch.insertRow ?_
    fun _ => h.exchange_columns hPivot.restricted hPivot.row_mem
  rw [rows_touch]
  exact hSolved.entering_new hPivot.toCrossing

/-- The rows of basic dummies mention dummies only, so a pivot leaves them as they are. -/
theorem Pinned.pivot (hDistinct : Set.InjOn Symbol.id issued) (h : t.Pinned) :
    (t.pivot leaving row entering).Pinned := by
  have hIssued : entering ∈ issued :=
    hSolved.columns.rows _ hPivot.row_mem _ hPivot.entering_mem
  have hAvoids : ∀ e ∈ t.rows.entries, e.1.isDummy = true →
      e.2.AllColumns fun c => c.id ≠ entering.id := fun e he hKind =>
    avoids_of_kind hDistinct (hSolved.columns.rows e he) hIssued (h e he hKind).2
      (by simp [hPivot.not_dummy])
  have hEliminate : (t.eliminate leaving row entering).Pinned :=
    (h.eraseRow.substitute_of_avoids
      fun e he => hAvoids e (SymbolMap.mem_erase_iff.mp he).1).mono (rows_touch _ _)
  refine (hEliminate.mono (rows_touch _ _)).insertRow ?_ fun hKind => ?_
  · rw [rows_touch]
    exact hSolved.entering_new hPivot.toCrossing
  · rw [hPivot.not_dummy] at hKind
    cases hKind

end Exchangeable

end SoftSimplex.Tableau
