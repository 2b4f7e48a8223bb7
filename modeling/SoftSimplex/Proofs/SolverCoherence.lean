import SoftSimplex.Proofs.NotedMoves
import SoftSimplex.Proofs.VariableIndex
import SoftSimplex.Solver.Publication

/-!
# Coherent solvers

What holds between two operations in any arithmetic and after any failure: the tableau is in solved
form over the issued symbols, no two live constraints share a column, and the index of the variables
is in order. Beside it stands what an operation owes the change log: a variable that is not in the log
afterwards has the solved value from before, up to additions of zero.
-/

namespace SoftSimplex
set_option autoImplicit false

open Scalar

namespace ChangeLog

variable {log : ChangeLog} {v w : Variable} {vs : List Variable}

theorem mem_mark : w ∈ (log.mark v).recording ↔ w ∈ log.recording ∨ w = v := by
  rw [mark]
  split
  · rename_i hMem
    exact (or_iff_left_of_imp fun hSame => hSame ▸ hMem).symm
  · simp

theorem mem_markAll : w ∈ (log.markAll vs).recording ↔ w ∈ log.recording ∨ w ∈ vs := by
  rw [markAll]
  induction vs generalizing log with
  | nil => simp
  | cons v rest ih => rw [List.foldl_cons, ih, mem_mark, List.mem_cons, or_assoc]

theorem nodup_mark (h : log.recording.Nodup) : (log.mark v).recording.Nodup := by
  rw [mark]
  split
  · exact h
  · rename_i hNot
    exact h.append (List.nodup_singleton _) (List.disjoint_singleton.mpr hNot)

theorem nodup_markAll (h : log.recording.Nodup) : (log.markAll vs).recording.Nodup := by
  rw [markAll]
  induction vs generalizing log with
  | nil => exact h
  | cons v rest ih => exact ih (nodup_mark h)

end ChangeLog

/-- Two tags have no column in common. -/
def Tag.Apart (tag other : Tag) : Prop := ∀ x ∈ tag.symbols, ∀ y ∈ other.symbols, x.id ≠ y.id

namespace Solver

variable {α : Type} [Scalar α] {issued more : Set Symbol} {s next after : Solver α} {t : Tableau α}
  {c : Constraint α} {v : Variable}

structure Coherent (issued : Set Symbol) (s : Solver α) : Prop where
  numbered : Numbered issued s.lastSymbol
  positive : ∀ x ∈ issued, 0 < x.id
  indexed : s.tracked.Indexed issued
  solved : s.tableau.Solved issued
  orderly : s.tableau.Orderly issued
  bare : s.tableau.artificial = none
  quiet : s.tableau.touched = []
  columns : ∀ l ∈ s.constraints.values, ∀ x ∈ l.tag.symbols, x ∈ issued ∧ x.isExternal = false
  edits : ∀ e ∈ s.edits.values, ∀ x ∈ e.tag.symbols, x ∈ issued ∧ x.isExternal = false
  apart : s.constraints.values.Pairwise fun l k => l.tag.Apart k.tag

/-- The symbol counter may go up, and nothing is said about names, published values and the log. -/
theorem Coherent.of_eq (h : s.Coherent issued) (hLast : s.lastSymbol ≤ next.lastSymbol)
    (hTracked : next.tracked = s.tracked) (hTableau : next.tableau = s.tableau)
    (hConstraints : next.constraints = s.constraints) (hEdits : next.edits = s.edits) :
    next.Coherent issued where
  numbered := h.numbered.mono hLast
  positive := h.positive
  indexed := hTracked ▸ h.indexed
  solved := hTableau ▸ h.solved
  orderly := hTableau ▸ h.orderly
  bare := hTableau ▸ h.bare
  quiet := hTableau ▸ h.quiet
  columns := hConstraints ▸ h.columns
  edits := hEdits ▸ h.edits
  apart := hConstraints ▸ h.apart

theorem Coherent.withConstraints (h : s.Coherent issued)
    {constraints : Registry Nat (LiveConstraint α)}
    (hColumns : ∀ l ∈ constraints.values, ∀ x ∈ l.tag.symbols, x ∈ issued ∧ x.isExternal = false)
    (hApart : constraints.values.Pairwise fun l k => l.tag.Apart k.tag) :
    ({ s with constraints } : Solver α).Coherent issued :=
  ⟨h.numbered, h.positive, h.indexed, h.solved, h.orderly, h.bare, h.quiet, hColumns, h.edits, hApart⟩

theorem Coherent.withEdits (h : s.Coherent issued) {edits : Registry Variable (Edit α)}
    (hEdits : ∀ e ∈ edits.values, ∀ x ∈ e.tag.symbols, x ∈ issued ∧ x.isExternal = false) :
    ({ s with edits } : Solver α).Coherent issued :=
  ⟨h.numbered, h.positive, h.indexed, h.solved, h.orderly, h.bare, h.quiet, h.columns, hEdits, h.apart⟩

theorem Coherent.columns_of_get? (h : s.Coherent issued) {id : Nat} {live : LiveConstraint α}
    (hFound : s.constraints.get? id = some live) :
    ∀ x ∈ live.tag.symbols, x ∈ issued ∧ x.isExternal = false :=
  h.columns live (Registry.mem_values_iff.mpr ⟨id, Registry.get?_eq_some_iff.mp hFound⟩)

theorem Coherent.edits_of_get? (h : s.Coherent issued) {edit : Edit α}
    (hFound : s.edits.get? v = some edit) :
    ∀ x ∈ edit.tag.symbols, x ∈ issued ∧ x.isExternal = false :=
  h.edits edit (Registry.mem_values_iff.mpr ⟨v, Registry.get?_eq_some_iff.mp hFound⟩)

/-- The change log has been kept on the way from one solver to the next. -/
structure Logs (s next : Solver α) : Prop where
  published : next.published = s.published
  nodup : s.changes.recording.Nodup → next.changes.recording.Nodup
  grows : ∀ v ∈ s.changes.recording, v ∈ next.changes.recording
  values : ∀ v, v ∉ next.changes.recording → Unmoved (s.solvedValue v) (next.solvedValue v)
  tracked : ∀ v, s.tracked.isTracked v = true →
    next.tracked.isTracked v = true ∨ v ∈ next.changes.recording

theorem Logs.refl (s : Solver α) : Logs s s :=
  ⟨rfl, id, fun _ h => h, fun _ _ => .refl, fun _ h => .inl h⟩

theorem Logs.trans (h : Logs s next) (hMore : Logs next after) : Logs s after where
  published := hMore.published.trans h.published
  nodup hNodup := hMore.nodup (h.nodup hNodup)
  grows v hv := hMore.grows v (h.grows v hv)
  values v hv := (h.values v fun hMem => hv (hMore.grows v hMem)).trans (hMore.values v hv)
  tracked v hv := by
    rcases h.tracked v hv with hv | hv
    · exact hMore.tracked v hv
    · exact .inr (hMore.grows v hv)

/-- Solvers with the same index, rows and published values differ in their logs only. -/
theorem Logs.of_rows_eq (hPublished : next.published = s.published) (hTracked : next.tracked = s.tracked)
    (hRows : next.tableau.rows = s.tableau.rows)
    (hNodup : s.changes.recording.Nodup → next.changes.recording.Nodup)
    (hGrows : ∀ v ∈ s.changes.recording, v ∈ next.changes.recording) : Logs s next where
  published := hPublished
  nodup := hNodup
  grows := hGrows
  values v _ := by
    have hValue : next.solvedValue v = s.solvedValue v := by
      rw [solvedValue, solvedValue, hTracked]
      cases s.tracked.records.get? v with
      | none => rfl
      | some r =>
        dsimp only
        rw [Tableau.value, Tableau.value, hRows]
    rw [hValue]
    exact .refl
  tracked v hv := .inl (hTracked ▸ hv)

theorem Logs.of_eq (hPublished : next.published = s.published) (hTracked : next.tracked = s.tracked)
    (hRows : next.tableau.rows = s.tableau.rows) (hChanges : next.changes = s.changes) :
    Logs s next :=
  .of_rows_eq hPublished hTracked hRows (fun hNodup => hChanges ▸ hNodup) fun _ hv => hChanges ▸ hv

theorem solvedValue_of_symbol? {x : Symbol} (h : s.tracked.symbol? v = some x) :
    s.solvedValue v = s.tableau.value x := by
  obtain ⟨r, hGet, rfl⟩ := Option.map_eq_some_iff.mp h
  rw [solvedValue, hGet]

theorem solvedValue_of_untracked (h : s.tracked.symbol? v = none) : s.solvedValue v = 0 := by
  rw [solvedValue, Option.map_eq_none_iff.mp h]

section Absorption

theorem Coherent.absorb (h : s.Coherent issued) (hEvolves : s.tableau.Evolves issued t) :
    (s.absorb t).Coherent issued where
  numbered := h.numbered
  positive := h.positive
  indexed := h.indexed
  solved := hEvolves.solved.mono rfl rfl fun _ hr => hr
  orderly := hEvolves.orderly.mono rfl
  bare := hEvolves.bare h.bare
  quiet := rfl
  columns := h.columns
  edits := h.edits
  apart := h.apart

theorem Coherent.logs_absorb (h : s.Coherent issued) (hEvolves : s.tableau.Evolves issued t) :
    Logs s (s.absorb t) where
  published := rfl
  nodup := ChangeLog.nodup_markAll
  grows v hv := ChangeLog.mem_markAll.mpr (.inl hv)
  values v hv := by
    cases hSymbol : s.tracked.symbol? v with
    | none =>
      rw [solvedValue_of_untracked hSymbol, solvedValue_of_untracked (s := s.absorb t) hSymbol]
      exact .refl
    | some x =>
      rw [solvedValue_of_symbol? hSymbol, solvedValue_of_symbol? (s := s.absorb t) hSymbol]
      obtain ⟨hIssued, hExternal⟩ := h.indexed.external v x hSymbol
      refine hEvolves.values x hIssued hExternal fun hNoted => hv ?_
      refine ChangeLog.mem_markAll.mpr (.inr (List.mem_filterMap.mpr ⟨x, ?_, ?_⟩))
      · exact List.mem_reverse.mpr hNoted
      · exact h.indexed.owner hSymbol
  tracked v hv := .inl hv

/-- A tableau without notes is taken over as it is. -/
theorem absorb_of_quiet (hQuiet : t.touched = []) : s.absorb t = { s with tableau := t } := by
  obtain ⟨rows, objective, artificial, infeasible, touched⟩ := t
  obtain rfl : touched = [] := hQuiet
  rfl

end Absorption

section Release

theorem tableau_release (s : Solver α) (c : Constraint α) : (s.release c).tableau = s.tableau := by
  obtain ⟨dropped, hRelease, _⟩ := s.release_eq_markAll c
  rw [hRelease]

theorem Coherent.release (h : s.Coherent issued) (c : Constraint α) :
    (s.release c).Coherent issued ∧ Logs s (s.release c) := by
  obtain ⟨dropped, hRelease, hTracked⟩ := s.release_eq_markAll c
  rw [hRelease]
  refine ⟨⟨h.numbered, h.positive, VariableTable.indexed_releaseAll h.indexed h.numbered, h.solved,
    h.orderly, h.bare, h.quiet, h.columns, h.edits, h.apart⟩, rfl, ChangeLog.nodup_markAll,
    fun v hv => ChangeLog.mem_markAll.mpr (.inl hv), fun v hv => ?_, fun v hv => ?_⟩
  · cases hBefore : s.tracked.symbol? v with
    | none =>
      have hAfter : (s.tracked.releaseAll (mentions c.expression.terms)).symbol? v = none := by
        by_contra hSome
        obtain ⟨x, hx⟩ := Option.ne_none_iff_exists'.mp hSome
        cases (VariableTable.extends_releaseAll v x hx).symm.trans hBefore
      rw [solvedValue_of_untracked hBefore, solvedValue_of_untracked hAfter]
      exact .refl
    | some x =>
      have hStill := (hTracked v (VariableTable.isTracked_iff.mpr ⟨x, hBefore⟩)).resolve_right
        fun hMem => hv (ChangeLog.mem_markAll.mpr (.inr hMem))
      obtain ⟨y, hy⟩ := VariableTable.isTracked_iff.mp hStill
      obtain rfl : y = x := Option.some.inj ((VariableTable.extends_releaseAll v y hy).symm.trans hBefore)
      rw [solvedValue_of_symbol? hBefore, solvedValue_of_symbol? hy]
      exact .refl
  · exact (hTracked v hv).imp_right fun hMem => ChangeLog.mem_markAll.mpr (.inr hMem)

end Release

end Solver

end SoftSimplex
