import SoftSimplex.Proofs.RowColumns
import SoftSimplex.Tableau.PhaseOne

/-!
# Solved form

A tableau is in solved form over a set of issued symbols if it mentions these only and no basic
symbol is a cell of a row or of an objective. No arithmetic is assumed: which cells can appear where
is a matter of columns alone. A pivot trades one basic symbol for another; the other operations add
a row or take one out.
-/

namespace SoftSimplex.Tableau
set_option autoImplicit false

/-- A property of every row, the objectives included. -/
structure AllRows {α : Type} (t : Tableau α) (P : Row α → Prop) : Prop where
  rows : ∀ e ∈ t.rows.entries, P e.2
  objective : P t.objective
  artificial : ∀ r ∈ t.artificial, P r

instance decidableAllRows {α : Type} (t : Tableau α) (P : Row α → Prop) [DecidablePred P] :
    Decidable (t.AllRows P) :=
  decidable_of_iff ((∀ e ∈ t.rows.entries, P e.2) ∧ P t.objective ∧ ∀ r ∈ t.artificial, P r)
    ⟨fun h => ⟨h.1, h.2.1, h.2.2⟩, fun h => ⟨h.rows, h.objective, h.artificial⟩⟩

structure Solved {α : Type} (issued : Set Symbol) (t : Tableau α) : Prop where
  keys : ∀ s ∈ t.rows.keys, s ∈ issued
  columns : t.AllRows fun r => r.AllColumns (· ∈ issued)
  nonbasic : ∀ s ∈ t.rows.keys, t.AllRows fun r => r.AllColumns fun c => c.id ≠ s.id

section Frame

variable {α : Type} (t : Tableau α) (s : Symbol)

@[simp] theorem rows_touch : (t.touch s).rows = t.rows := by
  unfold touch
  split <;> rfl

@[simp] theorem objective_touch : (t.touch s).objective = t.objective := by
  unfold touch
  split <;> rfl

@[simp] theorem artificial_touch : (t.touch s).artificial = t.artificial := by
  unfold touch
  split <;> rfl

@[simp] theorem infeasible_touch : (t.touch s).infeasible = t.infeasible := by
  unfold touch
  split <;> rfl

end Frame

section Rows

variable {α : Type} {issued : Set Symbol} {t u : Tableau α} {P Q : Row α → Prop} {row : Row α}
  {s : Symbol}

theorem AllRows.mono (h : t.AllRows P) (hRows : u.rows = t.rows)
    (hObjective : u.objective = t.objective) (hArtificial : ∀ r ∈ u.artificial, r ∈ t.artificial) :
    u.AllRows P where
  rows := hRows ▸ h.rows
  objective := hObjective ▸ h.objective
  artificial r hr := h.artificial r (hArtificial r hr)

theorem AllRows.touch (h : t.AllRows P) : (t.touch s).AllRows P :=
  h.mono (rows_touch t s) (objective_touch t s) fun _ hr => artificial_touch t s ▸ hr

theorem AllRows.imp (h : t.AllRows P) (hPQ : ∀ r, P r → Q r) : t.AllRows Q where
  rows e he := hPQ e.2 (h.rows e he)
  objective := hPQ _ h.objective
  artificial r hr := hPQ r (h.artificial r hr)

theorem AllRows.eraseRow (h : t.AllRows P) : (t.eraseRow s).AllRows P where
  rows e he := h.rows e (SymbolMap.mem_erase_iff.mp he).1
  objective := h.objective
  artificial := h.artificial

theorem AllRows.insertRow (h : t.AllRows P) (hRow : P row) : (t.insertRow s row).AllRows P where
  rows e he := by
    rcases SymbolMap.mem_alter he with ⟨_, hv⟩ | ⟨_, he⟩
    · exact Option.some.inj hv ▸ hRow
    · exact h.rows e he
  objective := h.objective
  artificial := h.artificial

theorem mem_keys_eraseRow {c : Symbol} (h : c ∈ (t.eraseRow s).rows.keys) :
    c ∈ t.rows.keys ∧ c.id ≠ s.id :=
  SymbolMap.mem_keys_erase_iff.mp h

theorem mem_keys_insertRow {c : Symbol} (h : c ∈ (t.insertRow s row).rows.keys) :
    c = s ∨ c ∈ t.rows.keys :=
  SymbolMap.mem_keys_alter h

theorem AllRows.strike (h : t.AllRows P) (hP : ∀ r, P r → Q (r.remove s))
    (hNone : t.artificial = none) : (t.strike s).AllRows Q where
  rows e he := by
    obtain ⟨d, hd, rfl⟩ := SymbolMap.mem_mapValues_iff.mp he
    exact hP d.2 (h.rows d hd)
  objective := hP _ h.objective
  artificial r hr := by
    rw [show (t.strike s).artificial = none from hNone] at hr
    cases hr

theorem keys_strike (t : Tableau α) (s : Symbol) : (t.strike s).rows.keys = t.rows.keys :=
  SymbolMap.keys_mapValues _ _

theorem Solved.mem_of_get? (h : t.Solved issued) (hDistinct : Set.InjOn Symbol.id issued)
    (hs : s ∈ issued) (hGet : t.rows.get? s = some row) : (s, row) ∈ t.rows.entries := by
  obtain ⟨c, hId, hc⟩ := SymbolMap.exists_mem_of_get? hGet
  rwa [hDistinct (h.keys c (SymbolMap.mem_keys_of_mem hc)) hs hId] at hc

theorem Solved.mono (h : t.Solved issued) (hRows : u.rows = t.rows)
    (hObjective : u.objective = t.objective) (hArtificial : ∀ r ∈ u.artificial, r ∈ t.artificial) :
    u.Solved issued where
  keys := hRows ▸ h.keys
  columns := h.columns.mono hRows hObjective hArtificial
  nonbasic c hc := (h.nonbasic c (hRows ▸ hc)).mono hRows hObjective hArtificial

theorem Solved.touch (h : t.Solved issued) : (t.touch s).Solved issued :=
  h.mono (rows_touch t s) (objective_touch t s) fun _ hr => artificial_touch t s ▸ hr

theorem Solved.weaken {more : Set Symbol} (h : t.Solved issued) (hMore : issued ⊆ more) :
    t.Solved more where
  keys c hc := hMore (h.keys c hc)
  columns := h.columns.imp fun _ hr => hr.imp fun _ hc => hMore hc
  nonbasic := h.nonbasic

theorem Solved.eraseRow (h : t.Solved issued) : (t.eraseRow s).Solved issued where
  keys c hc := h.keys c (mem_keys_eraseRow hc).1
  columns := h.columns.eraseRow
  nonbasic c hc := (h.nonbasic c (mem_keys_eraseRow hc).1).eraseRow

theorem Solved.insertRow (h : t.Solved issued) (hs : s ∈ issued)
    (hAbsent : t.AllRows fun r => r.AllColumns fun c => c.id ≠ s.id)
    (hRow : row.AllColumns fun c => c ∈ issued ∧ c.id ≠ s.id ∧ ∀ b ∈ t.rows.keys, c.id ≠ b.id) :
    (t.insertRow s row).Solved issued where
  keys c hc := by
    rcases mem_keys_insertRow hc with rfl | hc
    · exact hs
    · exact h.keys c hc
  columns := h.columns.insertRow (hRow.imp fun _ hc => hc.1)
  nonbasic c hc := by
    rcases mem_keys_insertRow hc with rfl | hc
    · exact hAbsent.insertRow (hRow.imp fun _ hc => hc.2.1)
    · exact (h.nonbasic c hc).insertRow (hRow.imp fun _ hd => hd.2.2 c hc)

theorem Solved.strike (h : t.Solved issued) (hNone : t.artificial = none) :
    (t.strike s).Solved issued where
  keys c hc := h.keys c (keys_strike t s ▸ hc)
  columns := h.columns.strike (fun _ hr => Row.AllColumns.remove (hr.imp fun _ hc _ => hc)) hNone
  nonbasic c hc := (h.nonbasic c (keys_strike t s ▸ hc)).strike
    (fun _ hr => Row.AllColumns.remove (hr.imp fun _ hc _ => hc)) hNone

end Rows


section Steps

variable {α : Type} [Scalar α] {issued : Set Symbol} {t : Tableau α} {P Q : Row α → Prop}
  {row : Row α} {leaving entering s : Symbol}

theorem keys_substitute (t : Tableau α) (s : Symbol) (row : Row α) :
    (t.substitute s row).rows.keys = t.rows.keys :=
  SymbolMap.keys_mapValues _ _

theorem AllRows.substitute (h : t.AllRows P) (hP : ∀ r, P r → Q (r.substitute s row)) :
    (t.substitute s row).AllRows Q where
  rows e he := by
    obtain ⟨d, hd, rfl⟩ := SymbolMap.mem_mapValues_iff.mp he
    exact hP d.2 (h.rows d hd)
  objective := hP _ h.objective
  artificial r hr := by
    obtain ⟨d, hd, rfl⟩ := Option.map_eq_some_iff.mp hr
    exact hP d (h.artificial d hd)

theorem Solved.substitute (h : t.Solved issued)
    (hRow : row.AllColumns fun c => c ∈ issued ∧ ∀ b ∈ t.rows.keys, c.id ≠ b.id) :
    (t.substitute s row).Solved issued where
  keys c hc := h.keys c (keys_substitute t s row ▸ hc)
  columns := h.columns.substitute fun _ hr =>
    Row.AllColumns.substitute (hr.imp fun _ hc _ => hc) (hRow.imp fun _ hc => hc.1)
  nonbasic c hc := (h.nonbasic c (keys_substitute t s row ▸ hc)).substitute fun _ hr =>
    Row.AllColumns.substitute (hr.imp fun _ hd _ => hd)
      (hRow.imp fun _ hd => hd.2 c (keys_substitute t s row ▸ hc))

theorem allRows_substitute_avoids (hRow : row.AllColumns fun c => c.id ≠ s.id) :
    (t.substitute s row).AllRows fun r => r.AllColumns fun c => c.id ≠ s.id :=
  (⟨fun _ _ => trivial, trivial, fun _ _ => trivial⟩ : t.AllRows fun _ => True).substitute
    fun _ _ => Row.AllColumns.substitute (fun _ _ hne => hne) hRow

/-- The leaving row, solved for the entering symbol, mentions no symbol that is basic afterwards. -/
theorem Solved.exchange_columns (h : t.Solved issued) (hRow : (leaving, row) ∈ t.rows.entries) :
    (row.exchange leaving entering).AllColumns fun c =>
      c ∈ issued ∧ c.id ≠ entering.id ∧ ∀ b ∈ (t.eraseRow leaving).rows.keys, c.id ≠ b.id := by
  refine Row.AllColumns.exchange (fun c hc hne => ⟨?_, hne, fun b hb => ?_⟩)
    fun hne => ⟨?_, hne, fun b hb => ?_⟩
  · exact h.columns.rows _ hRow c hc
  · exact (h.nonbasic b (mem_keys_eraseRow hb).1).rows _ hRow c hc
  · exact h.keys leaving (SymbolMap.mem_keys_of_mem hRow)
  · exact (mem_keys_eraseRow hb).2.symm

theorem Solved.eliminate (h : t.Solved issued) (hRow : (leaving, row) ∈ t.rows.entries) :
    (t.eliminate leaving row entering).Solved issued :=
  (h.eraseRow.substitute
    ((h.exchange_columns hRow).imp fun _ hc => ⟨hc.1, hc.2.2⟩)).touch

theorem Solved.eliminate_avoids (h : t.Solved issued) (hRow : (leaving, row) ∈ t.rows.entries) :
    (t.eliminate leaving row entering).AllRows fun r => r.AllColumns fun c => c.id ≠ entering.id :=
  (allRows_substitute_avoids ((h.exchange_columns hRow).imp fun _ hc => hc.2.1)).touch

theorem keys_eliminate :
    (t.eliminate leaving row entering).rows.keys = (t.eraseRow leaving).rows.keys := by
  rw [Tableau.eliminate, rows_touch, keys_substitute]

/-- Any issued symbol may enter; solving for one that is no cell of the row leaves the row as it is. -/
theorem Solved.pivot_of_issued (h : t.Solved issued) (hRow : (leaving, row) ∈ t.rows.entries)
    (hEntering : entering ∈ issued) : (t.pivot leaving row entering).Solved issued := by
  refine (h.eliminate hRow).touch.insertRow hEntering (h.eliminate_avoids hRow).touch
    ((h.exchange_columns hRow).imp fun c hc => ?_)
  refine ⟨hc.1, hc.2.1, fun b hb => hc.2.2 b ?_⟩
  rwa [rows_touch, keys_eliminate] at hb

theorem Solved.pivot (h : t.Solved issued) (hRow : (leaving, row) ∈ t.rows.entries)
    (hEntering : entering ∈ row.cells.keys) : (t.pivot leaving row entering).Solved issued :=
  h.pivot_of_issued hRow (h.columns.rows _ hRow _ hEntering)

theorem Solved.install (h : t.Solved issued) (hs : s ∈ issued)
    (hRow : row.AllColumns fun c => c ∈ issued ∧ ∀ b ∈ t.rows.keys, c.id ≠ b.id) :
    (t.install row s).Solved issued := by
  have hSolved : (row.solveFor s).AllColumns fun c =>
      c ∈ issued ∧ c.id ≠ s.id ∧ ∀ b ∈ t.rows.keys, c.id ≠ b.id :=
    Row.AllColumns.solveFor fun c hc hne => ⟨(hRow c hc).1, hne, (hRow c hc).2⟩
  refine (h.substitute (hSolved.imp fun _ hc => ⟨hc.1, hc.2.2⟩)).touch.insertRow hs
    (allRows_substitute_avoids (hSolved.imp fun _ hc => hc.2.1)).touch
    (hSolved.imp fun c hc => ⟨hc.1, hc.2.1, fun b hb => hc.2.2 b ?_⟩)
  rwa [rows_touch, keys_substitute] at hb

end Steps

end SoftSimplex.Tableau
