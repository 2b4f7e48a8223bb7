import SoftSimplex.Proofs.SolverCoherence
import SoftSimplex.Solver.Insertion

/-!
# Adding a constraint keeps a solver coherent

Encoding issues new symbols for new variables and for the constraint's own columns. A constraint that
is refused, or whose phase one breaks down, leaves everything but the symbol counter and the change log
as it was: what encoding has taken is given back entry for entry, and phase one has worked on a copy.
Any other constraint is in the solver afterwards, even if settling breaks down.
-/

namespace SoftSimplex
set_option autoImplicit false

open Scalar

namespace Row

variable {α : Type} {r : Row α} {e : Symbol × α} {symbols : List Symbol}

theorem mem_foldl_remove_iff : e ∈ (symbols.foldl remove r).cells.entries ↔
    e ∈ r.cells.entries ∧ ∀ x ∈ symbols, e.1.id ≠ x.id := by
  induction symbols generalizing r with
  | nil => simp
  | cons x rest ih =>
    rw [List.foldl_cons, ih, remove, SymbolMap.mem_erase_iff, List.forall_mem_cons, and_assoc]

theorem constant_foldl_remove : (symbols.foldl remove r).constant = r.constant := by
  induction symbols generalizing r with
  | nil => rfl
  | cons x rest ih => exact ih

variable [Scalar α] {k : α}

theorem mem_foldl_addSymbol_iff (h : ∀ x ∈ symbols, e.1.id ≠ x.id) :
    e ∈ (symbols.foldl (fun r x => r.addSymbol x k) r).cells.entries ↔ e ∈ r.cells.entries := by
  induction symbols generalizing r with
  | nil => exact Iff.rfl
  | cons x rest ih =>
    rw [List.foldl_cons, ih fun y hy => h y (List.mem_cons_of_mem _ hy), addSymbol]
    split
    · exact Iff.rfl
    · exact SymbolMap.mem_alter_iff_of_ne (h x List.mem_cons_self)

/-- Columns that a row does not have can be added and removed without a trace. -/
theorem foldl_remove_foldl_addSymbol (h : r.AllColumns fun c => ∀ x ∈ symbols, c.id ≠ x.id) :
    symbols.foldl remove (symbols.foldl (fun r x => r.addSymbol x k) r) = r := by
  have hCells : (symbols.foldl remove (symbols.foldl (fun r x => r.addSymbol x k) r)).cells =
      r.cells := by
    refine SymbolMap.ext_mem fun e => ?_
    rw [mem_foldl_remove_iff]
    constructor
    · rintro ⟨he, hne⟩
      exact (mem_foldl_addSymbol_iff hne).mp he
    · intro he
      have hne := h e.1 (SymbolMap.mem_keys_of_mem he)
      exact ⟨(mem_foldl_addSymbol_iff hne).mpr he, hne⟩
  have hConstant : (symbols.foldl remove (symbols.foldl (fun r x => r.addSymbol x k) r)).constant =
      r.constant :=
    constant_foldl_remove.trans (constant_foldl_addSymbol id (fun _ => k) symbols)
  obtain ⟨constant, cells⟩ := r
  generalize symbols.foldl remove (symbols.foldl (fun r x => r.addSymbol x k) ⟨constant, cells⟩) = q
    at hCells hConstant
  obtain ⟨_, _⟩ := q
  cases hCells
  cases hConstant
  rfl

end Row

namespace Solver

variable {α : Type} [Scalar α] {issued more : Set Symbol} {s next after : Solver α} {t : Tableau α}
  {c : Constraint α} {tag : Tag} {row : Row α} {x : Symbol}

section Encoding

/-- A draft after some of the terms, measured against the solver that it starts from. -/
structure Drafts (issued : Set Symbol) (s : Solver α) (d : Draft α) : Prop where
  later : s.lastSymbol ≤ d.lastSymbol
  numbered : Numbered issued d.lastSymbol
  positive : ∀ x ∈ issued, 0 < x.id
  indexed : d.tracked.Indexed issued
  held : s.tracked.Extends d.tracked
  fresh : ∀ v x, d.tracked.symbol? v = some x → s.tracked.symbol? v = some x ∨ s.lastSymbol < x.id
  columns : d.row.AllColumns fun x => x ∈ issued ∧ ∀ b ∈ s.tableau.rows.keys, x.id ≠ b.id

theorem Drafts.addTerm {d : Draft α} (h : Drafts issued s d) (hSolved : s.tableau.Solved issued)
    (term : Term α) : ∃ more, issued ⊆ more ∧ Drafts more s (d.addTerm s.tableau.rows term) := by
  cases hNegligible : Scalar.negligible term.coefficient with
  | true =>
    rw [Draft.addTerm_of_negligible hNegligible]
    exact ⟨issued, subset_rfl, h⟩
  | false =>
    rw [Draft.addTerm_of_not_negligible hNegligible]
    have hSubset := Set.subset_insert (d.tracked.acquire term.var d.lastSymbol).1 issued
    refine ⟨_, hSubset, ⟨h.later.trans VariableTable.le_acquire,
      VariableTable.numbered_acquire h.numbered h.indexed.toNamed, ?_,
      VariableTable.indexed_acquire h.indexed h.numbered,
      h.held.trans VariableTable.extends_acquire, fun v x hx => ?_,
      columns_termRow (hSolved.weaken hSubset) (Set.mem_insert _ _)
        (h.columns.imp fun _ hc => ⟨hSubset hc.1, hc.2⟩)⟩⟩
    · rintro x (rfl | hx)
      · rcases d.tracked.acquire_cases term.var d.lastSymbol with ⟨hOld, _⟩ | ⟨_, hNew, _⟩
        · exact h.positive _ (h.indexed.external _ _ hOld).1
        · rw [hNew]
          exact Nat.succ_pos _
      · exact h.positive x hx
    · rcases VariableTable.fresh_acquire hx with hOld | hLater
      · exact h.fresh v x hOld
      · exact .inr (h.later.trans_lt hLater)

theorem Drafts.foldl {d : Draft α} (h : Drafts issued s d) (hSolved : s.tableau.Solved issued)
    (terms : List (Term α)) : ∃ more, issued ⊆ more ∧
      Drafts more s (terms.foldl (Draft.addTerm s.tableau.rows) d) := by
  induction terms generalizing issued d with
  | nil => exact ⟨issued, subset_rfl, h⟩
  | cons term rest ih =>
    obtain ⟨more, hMore, hNext⟩ := h.addTerm hSolved term
    obtain ⟨most, hMost, hAll⟩ := ih hNext (hSolved.weaken hMore)
    exact ⟨most, hMore.trans hMost, hAll⟩

theorem Coherent.drafts (h : s.Coherent issued) (c : Constraint α) :
    ∃ more, issued ⊆ more ∧ Drafts more s (s.draft c) :=
  Drafts.foldl ⟨le_rfl, h.numbered, h.positive, h.indexed, .refl _, fun _ _ hx => .inl hx,
    Row.allColumns_of_cells _⟩ h.solved c.expression.terms

theorem draft_eq_acquireAll (s : Solver α) (c : Constraint α) :
    ((s.draft c).tracked, (s.draft c).lastSymbol) =
      s.tracked.acquireAll s.lastSymbol (mentions c.expression.terms) := by
  have hFold : ∀ (terms : List (Term α)) (d : Draft α),
      ((terms.foldl (Draft.addTerm s.tableau.rows) d).tracked,
        (terms.foldl (Draft.addTerm s.tableau.rows) d).lastSymbol) =
      d.tracked.acquireAll d.lastSymbol (mentions terms) := by
    intro terms
    induction terms with
    | nil => exact fun _ => rfl
    | cons term rest ih =>
      intro d
      cases hNegligible : Scalar.negligible term.coefficient with
      | true =>
        rw [List.foldl_cons, Draft.addTerm_of_negligible hNegligible, ih,
          mentions_cons_of_negligible hNegligible]
      | false =>
        rw [List.foldl_cons, Draft.addTerm_of_not_negligible hNegligible, ih,
          mentions_cons_of_not_negligible hNegligible]
        rfl
  exact hFold c.expression.terms _

/-- The row, the columns and the solver that a constraint's encoding leaves. -/
structure Encodes (issued more : Set Symbol) (s : Solver α) (row : Row α) (tag : Tag)
    (next : Solver α) : Prop where
  later : s.lastSymbol ≤ next.lastSymbol
  coherent : next.Coherent more
  logs : Logs s next
  columns : row.AllColumns fun x => x ∈ more ∧ ∀ b ∈ next.tableau.rows.keys, x.id ≠ b.id
  own : ∀ x ∈ tag.symbols, x ∈ more ∧ x.isExternal = false ∧ ∀ y ∈ issued, y.id ≠ x.id

/-- A variable that gets its symbol from encoding is not basic yet. -/
theorem Coherent.unmoved_encode (h : s.Coherent issued) {drafted : Set Symbol}
    (hDrafts : Drafts drafted s (s.draft c)) (v : Variable) :
    Unmoved (s.solvedValue v) ((s.encode c).2.2.solvedValue v) := by
  cases hBefore : s.tracked.symbol? v with
  | some x =>
    rw [solvedValue_of_symbol? hBefore, solvedValue_of_symbol? (s := (s.encode c).2.2)
      (hDrafts.held v x hBefore)]
    exact .refl
  | none =>
    rw [solvedValue_of_untracked hBefore]
    cases hAfter : (s.draft c).tracked.symbol? v with
    | none =>
      rw [solvedValue_of_untracked (s := (s.encode c).2.2) hAfter]
      exact .refl
    | some x =>
      have hAbove : s.lastSymbol < x.id := (hDrafts.fresh v x hAfter).resolve_left (by simp [hBefore])
      have hNone : (s.encode c).2.2.tableau.rows.get? x = none :=
        SymbolMap.get?_eq_none_iff.mpr fun b hb =>
          Nat.ne_of_lt (Nat.lt_of_le_of_lt (h.numbered.bound b (h.solved.keys b hb)) hAbove)
      have hValue : (s.encode c).2.2.tableau.value x = 0 := by
        rw [Tableau.value, hNone]
      rw [solvedValue_of_symbol? (s := (s.encode c).2.2) hAfter, hValue]
      exact .refl

theorem Coherent.encodes (h : s.Coherent issued) (c : Constraint α) :
    ∃ more, Encodes issued more s (s.encode c).1 (s.encode c).2.1 (s.encode c).2.2 := by
  obtain ⟨drafted, hSubset, hDrafts⟩ := h.drafts c
  have hSolved := h.solved.weaken hSubset
  have hMore : drafted ⊆
      drafted ∪ {x | x ∈ (Tag.ofConstraint c (s.draft c).lastSymbol).symbols} :=
    Set.subset_union_left
  have hEvolves := Tableau.Evolves.of_objective (hSolved.weaken hMore)
    (h.orderly.weaken (hSubset.trans hMore)) (columns_encodedObjective hDrafts.numbered hSolved)
  refine ⟨_, hDrafts.later.trans (Nat.le_add_right _ _),
    { numbered := hDrafts.numbered.union_symbols c
      positive := ?_
      indexed := hDrafts.indexed.mono hMore
      solved := hEvolves.solved
      orderly := hEvolves.orderly
      bare := h.bare
      quiet := h.quiet
      columns := fun l hl x hx => ⟨hMore (hSubset (h.columns l hl x hx).1), (h.columns l hl x hx).2⟩
      edits := fun e he x hx => ⟨hMore (hSubset (h.edits e he x hx).1), (h.edits e he x hx).2⟩
      apart := h.apart },
    ⟨rfl, id, fun _ hv => hv, fun v _ => h.unmoved_encode hDrafts v, fun v hv => .inl ?_⟩,
    columns_encode hDrafts.numbered hDrafts.columns hSolved.keys, fun x hx => ⟨.inr hx,
      Tag.isExternal_ofConstraint hx, fun y hy => hDrafts.numbered.columns_new hx y (hSubset hy)⟩⟩
  · rintro x (hx | hx)
    · exact hDrafts.positive x hx
    · exact Nat.zero_lt_of_lt (Tag.symbols_ofConstraint hx).1
  · obtain ⟨x, hx⟩ := VariableTable.isTracked_iff.mp hv
    exact VariableTable.isTracked_iff.mpr ⟨x, hDrafts.held v x hx⟩

end Encoding

section Restoration

/-- Everything but the symbol counter and the change log is as it was; of these the counter has not
gone down and the log has lost nothing. -/
structure Restores (s after : Solver α) : Prop where
  same : after = { s with lastSymbol := after.lastSymbol, changes := after.changes }
  later : s.lastSymbol ≤ after.lastSymbol
  nodup : s.changes.recording.Nodup → after.changes.recording.Nodup
  grows : ∀ v ∈ s.changes.recording, v ∈ after.changes.recording

theorem Restores.refl (s : Solver α) : Restores s s := ⟨rfl, le_rfl, id, fun _ hv => hv⟩

theorem Restores.logs (h : Restores s after) : Logs s after := by
  have hSame := h.same
  refine .of_rows_eq ?_ ?_ ?_ h.nodup h.grows <;> rw [hSame]

theorem Restores.coherent (h : Restores s after) (hs : s.Coherent issued) :
    after.Coherent issued := by
  have hSame := h.same
  refine hs.of_eq h.later ?_ ?_ ?_ ?_ <;> rw [hSame]

/-- Giving the references of an encoded constraint back leaves the index as it was. -/
theorem Coherent.releaseAll_encode (h : s.Coherent issued) (c : Constraint α) :
    (s.encode c).2.2.tracked.releaseAll (mentions c.expression.terms) = s.tracked := by
  rw [show (s.encode c).2.2.tracked = _ from congrArg Prod.fst (draft_eq_acquireAll s c)]
  exact VariableTable.releaseAll_acquireAll h.indexed h.numbered c.nodup_mentions

/-- Discarding takes back what encoding has done. -/
theorem Coherent.discard_encode (h : s.Coherent issued) (c : Constraint α) (last : Nat)
    (log : ChangeLog) : ∃ dropped,
      ({ (s.encode c).2.2 with lastSymbol := last, changes := log } : Solver α).discard c
        (s.encode c).2.1 = { s with lastSymbol := last, changes := log.markAll dropped } := by
  obtain ⟨drafted, hSubset, hDrafts⟩ := h.drafts c
  have hTracked : (s.draft c).tracked.releaseAll (mentions c.expression.terms) =
      s.tracked := h.releaseAll_encode c
  have hObjective : (s.encode c).2.1.errors.foldl Row.remove
      ((s.encode c).2.1.errors.foldl (fun r e => r.addSymbol e c.strength.value)
        s.tableau.objective) = s.tableau.objective := by
    refine Row.foldl_remove_foldl_addSymbol fun y hy e he => ?_
    exact hDrafts.numbered.columns_new (Tag.mem_symbols_of_mem_errors he) y
      (hSubset (h.solved.columns.objective y hy))
  rw [discard]
  obtain ⟨dropped, hRelease, _⟩ := release_eq_markAll _ c
  refine ⟨dropped, hRelease.trans ?_⟩
  show ({ s with
    tracked := (s.draft c).tracked.releaseAll (mentions c.expression.terms)
    lastSymbol := last
    changes := log.markAll dropped
    tableau := { s.tableau with objective := _ } } : Solver α) = _
  rw [hTracked]
  congr 1
  exact congrArg (fun objective => ({ s.tableau with objective } : Tableau α)) hObjective

theorem Coherent.restores_discard (h : s.Coherent issued) (c : Constraint α) {last : Nat}
    {log : ChangeLog} (hLast : s.lastSymbol ≤ last)
    (hNodup : s.changes.recording.Nodup → log.recording.Nodup)
    (hGrows : ∀ v ∈ s.changes.recording, v ∈ log.recording) :
    Restores s (({ (s.encode c).2.2 with lastSymbol := last, changes := log } : Solver α).discard c
      (s.encode c).2.1) := by
  obtain ⟨dropped, hDiscard⟩ := h.discard_encode c last log
  rw [hDiscard]
  exact ⟨rfl, hLast, fun hs => ChangeLog.nodup_markAll (hNodup hs), fun v hv =>
    ChangeLog.mem_markAll.mpr (.inl (hGrows v hv))⟩

/-- Rolling back a phase one leaves its notes only. -/
theorem Coherent.rollBack_eq (h : s.Coherent issued) (t : Tableau α) :
    s.rollBack t = { s with changes := s.changes.markAll (s.touchedVariables t) } := by
  have hSame : ({ s.tableau with artificial := none, touched := [] } : Tableau α) = s.tableau := by
    have hBare := h.bare
    have hQuiet := h.quiet
    generalize s.tableau = u at hBare hQuiet
    cases u
    cases hBare
    cases hQuiet
    rfl
  rw [rollBack, Solver.absorb]
  dsimp only
  rw [hSame]
  rfl

end Restoration

section Acceptance

theorem Coherent.register (h : s.Coherent issued)
    (hTag : ∀ x ∈ tag.symbols, x ∈ issued ∧ x.isExternal = false)
    (hApart : ∀ l ∈ s.constraints.values, l.tag.Apart tag)
    (hNew : s.constraints.get? c.id = none) :
    ({ s with constraints := s.constraints.insert c.id ⟨c, tag⟩ } : Solver α).Coherent issued := by
  apply h.withConstraints
  · intro l hl
    rw [Registry.values_insert hNew, List.mem_append, List.mem_singleton] at hl
    rcases hl with hl | rfl
    · exact h.columns l hl
    · exact hTag
  · rw [Registry.values_insert hNew]
    refine List.pairwise_append.mpr ⟨h.apart, List.pairwise_singleton _ _, fun l hl k hk => ?_⟩
    rw [List.mem_singleton.mp hk]
    exact hApart l hl

/-- A registered constraint stays, whether settling succeeds or breaks down. -/
theorem Coherent.accept (h : s.Coherent issued)
    (hTag : ∀ x ∈ tag.symbols, x ∈ issued ∧ x.isExternal = false)
    (hApart : ∀ l ∈ s.constraints.values, l.tag.Apart tag)
    (hNew : s.constraints.get? c.id = none) :
    (s.accept c tag).state.Coherent issued ∧ Logs s (s.accept c tag).state ∧
      ((s.accept c tag).result = .ok tag ∨
        ∃ cause, (s.accept c tag).result = .error (.breakdown cause)) := by
  have hRegistered := h.register hTag hApart hNew
  have hEvolves := Tableau.evolves_settle h.numbered.distinct s.pivotLimit h.solved h.orderly
  have hLogs : Logs s ({ s with constraints := s.constraints.insert c.id ⟨c, tag⟩ } : Solver α) :=
    .of_eq rfl rfl rfl rfl
  rw [Solver.accept]
  dsimp only
  generalize s.tableau.settle s.pivotLimit = pass at hEvolves
  obtain ⟨result, u⟩ := pass
  have hState := And.intro (hRegistered.absorb (t := u) hEvolves)
    (hLogs.trans (hRegistered.logs_absorb (t := u) hEvolves))
  cases result with
  | ok _ => exact ⟨hState.1, hState.2, .inl rfl⟩
  | error cause => exact ⟨hState.1, hState.2, .inr ⟨cause, rfl⟩⟩

/-- A row is solved for an external symbol, for a column of the constraint that falls, or, if nothing but
dummies is left and the constant is negligible, for the marker. -/
theorem basic_cases {subject : Symbol} (h : Placement.of row tag = .basic subject) :
    (subject ∈ row.cells.keys ∧ subject.isExternal = true) ∨
    (subject ∈ tag.symbols ∧ row.coefficient subject < 0) ∨
    (subject = tag.marker ∧ row.isAllDummies = true ∧ Scalar.negligible row.constant = true) := by
  rw [Placement.of] at h
  split at h
  · rename_i found hSubject
    obtain rfl := Placement.basic.inj h
    rw [subject?, Option.orElse_eq_orElse, Option.orElse_eq_or, Option.or_eq_some_iff] at hSubject
    rcases hSubject with hExternal | ⟨_, hOwn⟩
    · exact .inl ⟨List.mem_of_find?_eq_some hExternal, List.find?_some hExternal⟩
    · have hFound := List.find?_some hOwn
      simp only [Bool.and_eq_true, decide_eq_true_eq] at hFound
      exact .inr (.inl ⟨List.mem_of_find?_eq_some hOwn, hFound.2⟩)
  · split at h
    · rename_i hDummies
      split at h
      · rename_i hNegligible
        exact .inr (.inr ⟨(Placement.basic.inj h).symm, hDummies, hNegligible⟩)
      · cases h
    · cases h

theorem mem_of_placement {subject : Symbol} (h : Placement.of row tag = .basic subject) :
    subject ∈ row.cells.keys ∨ subject ∈ tag.symbols := by
  rcases basic_cases h with ⟨hCell, _⟩ | ⟨hOwn, _⟩ | ⟨rfl, _⟩
  · exact .inl hCell
  · exact .inr hOwn
  · exact .inr tag.marker_mem_symbols

/-- The symbol of a phase one is issued and not used otherwise. -/
theorem Coherent.issue (h : s.Coherent issued) :
    ({ s with lastSymbol := s.lastSymbol + 1 } : Solver α).Coherent
      (insert ⟨.slack, s.lastSymbol + 1⟩ issued) where
  numbered := h.numbered.insert (Nat.lt_succ_self _) le_rfl rfl
  positive := by
    rintro x (rfl | hx)
    · exact Nat.succ_pos _
    · exact h.positive x hx
  indexed := h.indexed.mono (Set.subset_insert _ _)
  solved := h.solved.weaken (Set.subset_insert _ _)
  orderly := h.orderly.weaken (Set.subset_insert _ _)
  bare := h.bare
  quiet := h.quiet
  columns l hl x hx := ⟨.inr (h.columns l hl x hx).1, (h.columns l hl x hx).2⟩
  edits e he x hx := ⟨.inr (h.edits e he x hx).1, (h.edits e he x hx).2⟩
  apart := h.apart

end Acceptance

section EncodedRow

variable (h : Encodes issued more s row tag next)
include h

theorem Encodes.subject_mem {subject : Symbol} (hPlacement : Placement.of row tag = .basic subject) :
    subject ∈ more := by
  rcases mem_of_placement hPlacement with hCell | hOwn
  · exact (h.columns subject hCell).1
  · exact (h.own subject hOwn).1

theorem Encodes.avoids_fresh : ∀ x ∈ more, x.id ≠ next.lastSymbol + 1 := fun x hx =>
  Nat.ne_of_lt (Nat.lt_succ_of_le (h.coherent.numbered.bound x hx))

theorem Encodes.cells_avoid_fresh :
    next.tableau.AllRows fun r => r.AllColumns fun x => x.id ≠ next.lastSymbol + 1 :=
  h.coherent.solved.columns.imp fun _ hr => hr.imp h.avoids_fresh

theorem Encodes.columns_phaseOne : row.AllColumns fun x =>
    x ∈ insert ⟨.slack, next.lastSymbol + 1⟩ more ∧ x.id ≠ next.lastSymbol + 1 ∧
      ∀ b ∈ next.tableau.rows.keys, x.id ≠ b.id :=
  h.columns.imp fun x hx => ⟨.inr hx.1, h.avoids_fresh x hx.1, hx.2⟩

theorem Encodes.evolves_phaseOne :
    next.tableau.Evolves (insert ⟨.slack, next.lastSymbol + 1⟩ more)
      (next.tableau.insertArtificially next.pivotLimit ⟨.slack, next.lastSymbol + 1⟩ row).state :=
  Tableau.evolves_insertArtificially h.coherent.issue.numbered.distinct h.coherent.issue.solved
    h.coherent.issue.orderly next.pivotLimit (Set.mem_insert _ _) rfl h.cells_avoid_fresh
    h.columns_phaseOne

end EncodedRow

/-- Discarding after a phase one that was rolled back restores the solver. -/
theorem Coherent.restores_rollBack (h : s.Coherent issued) (c : Constraint α) (u : Tableau α) :
    Restores s ((({ (s.encode c).2.2 with lastSymbol := (s.encode c).2.2.lastSymbol + 1 } :
      Solver α).rollBack u).discard c (s.encode c).2.1) := by
  obtain ⟨more, hEncodes⟩ := h.encodes c
  rw [hEncodes.coherent.issue.rollBack_eq u]
  exact h.restores_discard c (hEncodes.later.trans (Nat.le_succ _)) ChangeLog.nodup_markAll
    fun v hv => ChangeLog.mem_markAll.mpr (.inl hv)

/-- Phase one is tried for a constraint and breaks down. -/
def PhaseOneBreaks (s : Solver α) (c : Constraint α) : Prop :=
  let (row, tag, next) := s.encode c
  s.hasConstraint c.id = false ∧ Placement.of row tag = .phaseOne ∧
    ∃ cause, (next.tableau.insertArtificially next.pivotLimit ⟨.slack, next.lastSymbol + 1⟩
      row).result = .error cause

/-- How adding a constraint ends. -/
inductive Inserts (s : Solver α) (c : Constraint α) (a : Attempt SolverError Tag (Solver α)) :
    Prop where
  | refused (restores : Restores s a.state)
      (refusal : a.result = .error .duplicateConstraint ∨
        a.result = .error .unsatisfiableConstraint ∨
          s.PhaseOneBreaks c ∧ ∃ cause, a.result = .error (.breakdown cause))
  | accepted (issued : Set Symbol) (tag : Tag) (coherent : a.state.Coherent issued)
      (logs : Logs s a.state) (own : ∀ x ∈ tag.symbols, x ∈ issued ∧ x.isExternal = false)
      (through : ¬ s.PhaseOneBreaks c)
      (answer : a.result = .ok tag ∨ ∃ cause, a.result = .error (.breakdown cause))

theorem Coherent.inserts_phaseOne (h : s.Coherent issued)
    (hEncodes : Encodes issued more s (s.encode c).1 (s.encode c).2.1 (s.encode c).2.2)
    (hHas : s.hasConstraint c.id = false) (hNew : s.constraints.get? c.id = none)
    (hApart : ∀ l ∈ s.constraints.values, l.tag.Apart (s.encode c).2.1)
    (hOwn : ∀ x ∈ (s.encode c).2.1.symbols, x ∈ more ∧ x.isExternal = false)
    (hPlacement : Placement.of (s.encode c).1 (s.encode c).2.1 = .phaseOne) :
    Inserts s c ((s.encode c).2.2.insertByPhaseOne c (s.encode c).2.1 (s.encode c).1) := by
  have hSolver := hEncodes.coherent
  have hIssue := hSolver.issue
  have hEvolves := hEncodes.evolves_phaseOne
  rw [insertByPhaseOne]
  dsimp only
  have hBreaks : ∀ {pass}, (s.encode c).2.2.tableau.insertArtificially (s.encode c).2.2.pivotLimit
      ⟨.slack, (s.encode c).2.2.lastSymbol + 1⟩ (s.encode c).1 = pass →
      (s.PhaseOneBreaks c ↔ ∃ cause, pass.result = .error cause) := by
    rintro pass rfl
    exact ⟨fun hBreaks => hBreaks.2.2, fun hCause => ⟨hHas, hPlacement, hCause⟩⟩
  generalize hPass : (s.encode c).2.2.tableau.insertArtificially (s.encode c).2.2.pivotLimit
    ⟨.slack, (s.encode c).2.2.lastSymbol + 1⟩ (s.encode c).1 = pass at hEvolves
  obtain ⟨result, u⟩ := pass
  match result with
  | .ok true =>
    obtain ⟨hCoherent, hLogs, hAnswer⟩ := (hIssue.absorb hEvolves).accept (c := c)
      (fun x hx => ⟨.inr (hOwn x hx).1, (hOwn x hx).2⟩) hApart hNew
    refine .accepted _ _ hCoherent (hEncodes.logs.trans (.trans ?_
      ((hIssue.logs_absorb hEvolves).trans hLogs))) (fun x hx => ⟨.inr (hOwn x hx).1, (hOwn x hx).2⟩)
      ?_ hAnswer
    · exact .of_eq rfl rfl rfl rfl
    · rw [hBreaks hPass]
      rintro ⟨cause, hCause⟩
      cases hCause
  | .ok false => exact .refused (h.restores_rollBack c u) (.inr (.inl rfl))
  | .error cause =>
    exact .refused (h.restores_rollBack c u)
      (.inr (.inr ⟨(hBreaks hPass).mpr ⟨cause, rfl⟩, cause, rfl⟩))

theorem Coherent.inserts (h : s.Coherent issued) (c : Constraint α) :
    Inserts s c (s.insertConstraint c) := by
  rw [insertConstraint]
  split
  · exact .refused (.refl s) (.inl rfl)
  · rename_i hNot
    have hHas : s.hasConstraint c.id = false := by simpa using hNot
    have hNew := get?_of_not_hasConstraint hHas
    obtain ⟨more, hEncodes⟩ := h.encodes c
    have hApart : ∀ l ∈ s.constraints.values, l.tag.Apart (s.encode c).2.1 := by
      intro l hl x hx y hy
      exact (hEncodes.own y hy).2.2 x (h.columns l hl x hx).1
    have hOwn : ∀ x ∈ (s.encode c).2.1.symbols, x ∈ more ∧ x.isExternal = false := fun x hx =>
      ⟨(hEncodes.own x hx).1, (hEncodes.own x hx).2.1⟩
    have hSolver := hEncodes.coherent
    dsimp only
    split
    · -- The row is solved for one of its symbols.
      rename_i subject hPlacement
      have hEvolves := Tableau.evolves_install hSolver.numbered.distinct hSolver.solved
        hSolver.orderly (hEncodes.subject_mem hPlacement) hEncodes.columns
      obtain ⟨hCoherent, hLogs, hAnswer⟩ := (hSolver.absorb hEvolves).accept (c := c)
        hOwn hApart hNew
      refine .accepted more (s.encode c).2.1 hCoherent
        (hEncodes.logs.trans ((hSolver.logs_absorb hEvolves).trans hLogs)) hOwn ?_ hAnswer
      rintro ⟨_, hPhaseOne, _⟩
      cases hPlacement.symm.trans hPhaseOne
    · exact .refused (h.restores_discard c hEncodes.later id fun _ hv => hv) (.inr (.inl rfl))
    · rename_i hPlacement
      exact h.inserts_phaseOne hEncodes hHas hNew hApart hOwn hPlacement

end Solver

end SoftSimplex
