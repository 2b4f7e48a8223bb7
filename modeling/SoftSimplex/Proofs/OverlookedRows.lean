import SoftSimplex.Proofs.CoherentRuns
import SoftSimplex.Proofs.RepairQueue
import SoftSimplex.Proofs.RunTrace

/-!
# Rows that runs overlook

The entries of a run are the symbols that its primal passes, its phases one and their retirements let
into the basis, each with the value it enters with. After a run without a breakdown no restricted row
needs repair, except perhaps the row of one entry that still has the value it entered with. With a
tolerance such a row exists: a constant too small to be repaired grows when a primal pivot divides it by
a small cell.
-/

namespace SoftSimplex
set_option autoImplicit false

namespace Solver

open Tableau (Step)

variable {α : Type} [Scalar α] {issued more : Set Symbol} {s next : Solver α} {c : Constraint α}
  {steps : List (Step α)}

/-- Nothing waits for repair, and what the queue has overlooked is an entry of these steps. -/
structure Tended (s : Solver α) (steps : List (Step α)) : Prop where
  rows : s.tableau.Overlooks steps
  queue : s.tableau.infeasible = []

theorem Tended.congr (h : s.Tended steps) (hTableau : next.tableau = s.tableau) :
    next.Tended steps :=
  ⟨hTableau ▸ h.rows, hTableau ▸ h.queue⟩

theorem Tended.extend (h : s.Tended steps) (more : List (Step α)) :
    s.Tended (steps ++ more) :=
  ⟨h.rows.extend more, h.queue⟩

theorem tended_absorb {t : Tableau α} (hRows : t.Overlooks steps) (hQueue : t.infeasible = []) :
    (s.absorb t).Tended steps :=
  ⟨hRows.of_watched fun _ hw => hw.mono rfl rfl, hQueue⟩

section Insertion

variable [SignRules α] {tag : Tag} {subject : Symbol}

theorem not_lt_zero_encode : ¬ (s.encode c).1.constant < 0 := by
  rw [encode_row]
  split
  · rename_i hBelow
    exact SignRules.not_neg_lt_zero hBelow
  · rename_i hNot
    exact hNot

omit [SignRules α] in
/-- An equation's dummy has the coefficient one, up to the sign of the row. -/
theorem unit_of_dummy {drafted : Set Symbol} (hNumbered : Numbered drafted (s.draft c).lastSymbol)
    (hRow : (s.draft c).row.AllColumns (· ∈ drafted))
    (hDummy : (s.encode c).2.1.marker.isDummy = true) {k : α}
    (hGet : (s.encode c).1.cells.get? (s.encode c).2.1.marker = some k) : k = 1 ∨ k = -1 := by
  obtain ⟨hOther, hSign⟩ : (Tag.ofConstraint c (s.draft c).lastSymbol).other = none ∧
      (Tag.markerSign c : α) = 1 := Tag.ofConstraint_of_isDummy hDummy
  have hNew : (s.draft c).row.cells.get? (s.encode c).2.1.marker = none :=
    SymbolMap.get?_eq_none_iff.mpr fun x hx =>
      hNumbered.columns_new (Tag.marker_mem_symbols _) x (hRow x hx)
  have hRaw : rawRow s c = (s.draft c).row.addSymbol (s.encode c).2.1.marker 1 := by
    rw [rawRow, Tag.cells, hOther, hSign]
    rfl
  have hCell : ∀ k, (rawRow s c).cells.get? (s.encode c).2.1.marker = some k → k = 1 := by
    intro k hk
    rw [hRaw, Row.addSymbol] at hk
    split at hk
    · cases hNew.symm.trans hk
    · rw [SymbolMap.get?_alter, if_pos rfl, hNew, Row.addToCell] at hk
      split at hk
      · cases hk
      · exact (Option.some.inj hk).symm
  rw [encode_row] at hGet
  split at hGet
  · rw [Row.reverseSign, Row.mapCoefficients, SymbolMap.get?_mapValues] at hGet
    obtain ⟨d, hd, rfl⟩ := Option.map_eq_some_iff.mp hGet
    exact .inr (by rw [hCell d hd])
  · exact .inl (hCell k hGet)

theorem needsRepair_solveFor_of_falling {row : Row α} (hNonneg : ¬ row.constant < 0)
    (hFalls : row.coefficient subject < 0) :
    Tableau.needsRepair (row.solveFor subject) = false := by
  apply Tableau.needsRepair_eq_false
  rw [Row.coefficient] at hFalls
  rw [Row.solveFor]
  cases hGet : row.cells.get? subject with
  | none => exact hNonneg
  | some k =>
    rw [hGet] at hFalls
    exact SignRules.not_lt_zero_of_falling hNonneg hFalls

theorem Coherent.needsRepair_solveFor_marker (h : s.Coherent issued)
    (hDummies : (s.encode c).1.isAllDummies = true)
    (hNegligible : Scalar.negligible (s.encode c).1.constant = true) :
    Tableau.needsRepair ((s.encode c).1.solveFor (s.encode c).2.1.marker) = false := by
  apply Tableau.needsRepair_of_negligible
  rw [Row.solveFor]
  cases hGet : (s.encode c).1.cells.get? (s.encode c).2.1.marker with
  | none => exact hNegligible
  | some k =>
    obtain ⟨drafted, _, hDrafts⟩ := h.drafts c
    obtain ⟨more, hEncodes⟩ := h.encodes c
    obtain ⟨x, hId, hx⟩ := SymbolMap.exists_mem_of_get? hGet
    have hKey := SymbolMap.mem_keys_of_mem hx
    obtain rfl := hEncodes.coherent.numbered.distinct (hEncodes.columns x hKey).1
      (hEncodes.own _ (Tag.marker_mem_symbols _)).1 hId
    have hDummy : (s.encode c).2.1.marker.isDummy = true := List.all_eq_true.mp hDummies _ hKey
    exact SignRules.negligible_of_unit hNegligible (unit_of_dummy hDrafts.numbered
      (hDrafts.columns.imp fun _ hc => hc.1) hDummy hGet)

/-- The row that a placement makes basic at once does not need repair. -/
theorem Coherent.needsRepair_of_placement (h : s.Coherent issued)
    (hPlacement : Placement.of (s.encode c).1 (s.encode c).2.1 = .basic subject)
    (hRestricted : subject.isExternal = false) :
    Tableau.needsRepair ((s.encode c).1.solveFor subject) = false := by
  rcases basic_cases hPlacement with ⟨_, hExternal⟩ | ⟨_, hFalls⟩ | ⟨rfl, hDummies, hNegligible⟩
  · cases hRestricted.symm.trans hExternal
  · exact needsRepair_solveFor_of_falling not_lt_zero_encode hFalls
  · exact h.needsRepair_solveFor_marker hDummies hNegligible

theorem Coherent.tended_accept (h : s.Coherent issued) (hRows : s.tableau.Overlooks steps)
    {own : Tag} (hOk : (s.accept c tag).result = .ok own) : (s.accept c tag).state.Tended
      (steps ++ Tableau.settleSteps s.pivotLimit s.tableau) := by
  rw [Solver.accept] at hOk ⊢
  dsimp only at hOk ⊢
  cases hSettle : s.tableau.settle s.pivotLimit with
  | mk result t =>
    rw [hSettle] at hOk
    cases result with
    | error cause => cases hOk
    | ok _ =>
      obtain ⟨hSettled, hQueue⟩ :=
        Tableau.overlooks_settle h.numbered.distinct h.solved h.orderly hRows hSettle
      exact tended_absorb hSettled hQueue

/-- A row that is solved for one of its symbols. -/
theorem Coherent.tended_installation (h : s.Coherent issued)
    (hEncodes : Encodes issued more s (s.encode c).1 (s.encode c).2.1 (s.encode c).2.2)
    (hPlacement : Placement.of (s.encode c).1 (s.encode c).2.1 = .basic subject) {own : Tag}
    (hOk : (((s.encode c).2.2.absorb ((s.encode c).2.2.tableau.install (s.encode c).1
      subject)).accept c tag).result = .ok own) :
    (((s.encode c).2.2.absorb ((s.encode c).2.2.tableau.install (s.encode c).1 subject)).accept c
      tag).state.Tended (steps ++ .install subject (s.encode c).1 ::
        Tableau.settleSteps (s.encode c).2.2.pivotLimit ((s.encode c).2.2.absorb
          ((s.encode c).2.2.tableau.install (s.encode c).1 subject)).tableau) := by
  have hSolver := hEncodes.coherent
  have hNew : ∀ b ∈ (s.encode c).2.2.tableau.rows.keys, b.id ≠ subject.id := by
    intro b hb
    rcases mem_of_placement hPlacement with hCell | hOwn
    · exact ((hEncodes.columns subject hCell).2 b hb).symm
    · exact (hEncodes.own subject hOwn).2.2 b (h.solved.keys b hb)
  have hEvolves := Tableau.evolves_install hSolver.numbered.distinct hSolver.solved
    hSolver.orderly (hEncodes.subject_mem hPlacement) hEncodes.columns
  have hInstalled := Tableau.watched_install hNew (h.needsRepair_of_placement hPlacement)
  have hSettled := (hSolver.absorb hEvolves).tended_accept
    ((hInstalled.mono rfl rfl).overlooks (steps ++ [.install subject (s.encode c).1])) hOk
  rwa [List.append_assoc] at hSettled

/-- A row that is inserted by a phase one. -/
theorem Encodes.tended_phaseOne
    (hEncodes : Encodes issued more s (s.encode c).1 (s.encode c).2.1 (s.encode c).2.2)
    (hRows : (s.encode c).2.2.tableau.Overlooks steps) {own : Tag}
    (hOk : ((s.encode c).2.2.insertByPhaseOne c tag (s.encode c).1).result = .ok own) :
    ∃ t, (s.encode c).2.2.tableau.insertArtificially (s.encode c).2.2.pivotLimit
        ⟨.slack, (s.encode c).2.2.lastSymbol + 1⟩ (s.encode c).1 = ⟨.ok true, t⟩ ∧
      ((s.encode c).2.2.insertByPhaseOne c tag (s.encode c).1).state.Tended (steps ++
        ((s.encode c).2.2.tableau.phaseOneSteps (s.encode c).2.2.pivotLimit
            ⟨.slack, (s.encode c).2.2.lastSymbol + 1⟩ (s.encode c).1 ++
          Tableau.settleSteps (s.encode c).2.2.pivotLimit
            ((s.encode c).2.2.absorb t).tableau)) := by
  have hSolver := hEncodes.coherent
  have hIssue := hSolver.issue
  have hEvolves := hEncodes.evolves_phaseOne
  have hStart := hIssue.solved.phaseOneStart (Set.mem_insert _ _) hEncodes.cells_avoid_fresh
    hEncodes.columns_phaseOne
  rw [insertByPhaseOne] at hOk ⊢
  dsimp only at hOk ⊢
  cases hPass : (s.encode c).2.2.tableau.insertArtificially (s.encode c).2.2.pivotLimit
    ⟨.slack, (s.encode c).2.2.lastSymbol + 1⟩ (s.encode c).1 with
  | mk result t =>
    rw [hPass] at hOk hEvolves
    cases result with
    | error cause => cases hOk
    | ok satisfied =>
      cases satisfied with
      | false => cases hOk
      | true =>
        have hInserted := Tableau.overlooks_insertArtificially (s.encode c).2.2.pivotLimit
          hIssue.numbered.distinct hStart hIssue.orderly (Set.mem_insert _ _)
          (fun b hb => hEncodes.avoids_fresh b (hSolver.solved.keys b hb)) not_lt_zero_encode hRows
          hPass
        refine ⟨t, rfl, ?_⟩
        rw [← List.append_assoc]
        exact (hIssue.absorb hEvolves).tended_accept
          (hInserted.of_watched fun _ hw => hw.mono rfl rfl) hOk

theorem Coherent.tended_insertConstraint (h : s.Coherent issued) (hTended : s.Tended steps)
    (hThrough : ∀ cause, (s.insertConstraint c).result ≠ .error (.breakdown cause)) :
    (s.insertConstraint c).state.Tended (steps ++ s.insertionSteps c) := by
  cases h.inserts c with
  | refused hRestores => exact (hTended.congr (by rw [hRestores.same])).extend _
  | accepted _ own _ _ _ _ hAnswer =>
    have hOk : (s.insertConstraint c).result = .ok own :=
      hAnswer.resolve_right fun ⟨cause, hBroken⟩ => hThrough cause hBroken
    rw [insertConstraint] at hOk ⊢
    rw [insertionSteps]
    split at hOk
    · cases hOk
    · rename_i hNot
      rw [if_neg hNot, if_neg hNot]
      obtain ⟨more, hEncodes⟩ := h.encodes c
      dsimp only at hOk ⊢
      cases hPlacement : Placement.of (s.encode c).1 (s.encode c).2.1 with
      | basic subject =>
        rw [hPlacement] at hOk
        exact h.tended_installation hEncodes hPlacement hOk
      | contradiction =>
        rw [hPlacement] at hOk
        cases hOk
      | phaseOne =>
        rw [hPlacement] at hOk
        have hRows : (s.encode c).2.2.tableau.Overlooks steps :=
          hTended.rows.of_watched fun _ hw => hw.mono rfl rfl
        obtain ⟨t, hPass, hInserted⟩ := hEncodes.tended_phaseOne hRows hOk
        dsimp only
        rw [hPass]
        exact hInserted

theorem Coherent.tended_addConstraint (h : s.Coherent issued) (hTended : s.Tended steps)
    (hThrough : ∀ cause, (s.addConstraint c).result ≠ .error (.breakdown cause)) :
    (s.addConstraint c).state.Tended (steps ++ s.insertionSteps c) := by
  refine h.tended_insertConstraint hTended fun cause hBroken => hThrough cause ?_
  exact congrArg (Except.map fun _ => ()) hBroken

theorem Coherent.tended_addConstraints (h : s.Coherent issued) (hTended : s.Tended steps)
    {cs : List (Constraint α)}
    (hThrough : ∀ cause, (s.addConstraints cs).result ≠ .error (.breakdown cause)) :
    (s.addConstraints cs).state.Tended (steps ++ s.additionSteps cs) := by
  induction cs generalizing s issued steps with
  | nil => exact hTended.extend _
  | cons c rest ih =>
    have hAdvances := h.addConstraint c
    have hFirst := h.tended_addConstraint (c := c) hTended
    rw [Solver.addConstraints] at hThrough ⊢
    rw [additionSteps, ← List.append_assoc]
    cases hAdd : s.addConstraint c with
    | mk result next =>
      rw [hAdd] at hThrough hAdvances hFirst
      cases result with
      | ok _ =>
        obtain ⟨later, hNext⟩ := hAdvances.coherent
        exact ih hNext (hFirst fun _ hBroken => by cases hBroken) hThrough
      | error e => exact (hFirst hThrough).extend _

end Insertion

section Removal

variable [SignRules α] {id : Nat}

theorem Coherent.tended_removeConstraint (h : s.Coherent issued) (hTended : s.Tended steps)
    (hThrough : ∀ cause, (s.removeConstraint id).result ≠ .error (.breakdown cause)) :
    (s.removeConstraint id).state.Tended (steps ++ s.removalSteps id) := by
  have hRemoves := s.removes id
  generalize s.removeConstraint id = a at hRemoves hThrough ⊢
  cases hRemoves with
  | unknown => exact hTended.extend _
  | stuck => exact absurd rfl (hThrough .missingLeavingRow)
  | @broken _ _ _ cause => exact absurd rfl (hThrough cause)
  | @removed live t u hFound hDrop hPass =>
    have hForgot : (s.tableau.forget live).Overlooks steps := by
      obtain ⟨objective, hSame⟩ := s.tableau.forget_eq live
      rw [hSame]
      exact hTended.rows.of_watched fun _ hw => hw.mono rfl rfl
    have hDropped := h.evolves_drop hFound hDrop
    obtain ⟨hSettled, hQueue⟩ := Tableau.overlooks_settle h.numbered.distinct hDropped.solved
      hDropped.orderly ((hForgot.dropMarker? hDrop).extend [.drop live.tag.marker]) hPass
    rw [List.append_assoc] at hSettled
    rw [removalSteps_of_dropped hFound hDrop]
    exact (tended_absorb hSettled hQueue).congr (tableau_release _ live.constraint)

end Removal

section Editing

variable [SignRules α] {v : Variable} {w : Strength α} {x : α} {id : Nat}

theorem Coherent.tended_addEditVariable (h : s.Coherent issued) (hTended : s.Tended steps)
    (hThrough : ∀ cause, (s.addEditVariable v w id).result ≠ .error (.breakdown cause)) :
    (s.addEditVariable v w id).state.Tended
      (steps ++ s.operationSteps (.addEditVariable v w id)) := by
  have hInsert := h.tended_insertConstraint (c := .make id (.ofVariable v) .equal w) hTended
  have hRegisters := s.registers v w id
  generalize s.addEditVariable v w id = a at hRegisters hThrough ⊢
  cases hRegisters with
  | refused => exact hTended.extend _
  | @broken _ cause => exact absurd rfl (hThrough cause)
  | registered hAllowed hInsertion =>
    rw [hInsertion] at hInsert
    rw [operationSteps, hAllowed]
    exact (hInsert fun _ hBroken => by cases hBroken).congr rfl

theorem Coherent.tended_removeEditVariable (h : s.Coherent issued) (hTended : s.Tended steps)
    (hThrough : ∀ cause, (s.removeEditVariable v).result ≠ .error (.breakdown cause)) :
    (s.removeEditVariable v).state.Tended
      (steps ++ s.operationSteps (.removeEditVariable v)) := by
  have hRemove : ∀ id, (∀ cause, (({ s with edits := s.edits.erase v } :
      Solver α).removeConstraint id).result ≠ .error (.breakdown cause)) →
      (({ s with edits := s.edits.erase v } : Solver α).removeConstraint id).state.Tended
        (steps ++ s.removalSteps id) :=
    fun _ => (h.eraseEdit v).tended_removeConstraint (hTended.congr rfl)
  have hRetires := s.retires v
  generalize s.removeEditVariable v = a at hRetires hThrough ⊢
  cases hRetires with
  | unknown => exact hTended.extend _
  | @forgotten edit next hFound hRemoval =>
    have hRemoved := hRemove edit.constraint.id
    rw [hRemoval] at hRemoved
    rw [operationSteps_removeEditVariable hFound]
    exact hRemoved nofun
  | @removed edit _ hFound hRemoval =>
    have hRemoved := hRemove edit.constraint.id
    rw [hRemoval] at hRemoved
    rw [operationSteps_removeEditVariable hFound]
    exact hRemoved hThrough

theorem Coherent.tended_suggestValue (h : s.Coherent issued) (hTended : s.Tended steps)
    (hThrough : ∀ cause, (s.suggestValue v x).result ≠ .error (.breakdown cause)) :
    (s.suggestValue v x).state.Tended steps := by
  have hSuggests := s.suggests v x
  generalize s.suggestValue v x = a at hSuggests hThrough ⊢
  cases hSuggests with
  | unknown => exact hTended
  | notFinite => exact hTended
  | same => exact hTended.congr rfl
  | @broken _ _ cause => exact absurd rfl (hThrough cause)
  | @moved edit t hFound hPass =>
    have hShifted := h.evolves_shift hFound (x - edit.value)
    obtain ⟨o, ho, hWatched⟩ := hTended.rows
    have hMoved := hWatched.shiftEdit h.numbered.distinct h.solved
      (fun y hy => (h.edits_of_get? hFound y hy).1) (x - edit.value)
    obtain ⟨hRepaired, hQueue⟩ := Tableau.watched_dualOptimize h.numbered.distinct
      hShifted.solved hShifted.orderly hMoved hPass
    exact tended_absorb ⟨o, ho, hRepaired⟩ hQueue

end Editing

section Runs

theorem tended_withPivotLimit (limit : Nat) : (withPivotLimit limit : Solver α).Tended steps := by
  refine ⟨Tableau.Watched.overlooks ?_ steps, rfl⟩
  intro e he
  cases he

variable [SignRules α]

theorem Coherent.tended_perform (h : s.Coherent issued) (hTended : s.Tended steps)
    {op : Operation α} (hThrough : (s.perform op).1.isBreakdown = false) :
    (s.perform op).2.Tended (steps ++ s.operationSteps op) := by
  cases op with
  | addConstraint c => exact h.tended_addConstraint hTended (not_breakdown_of_answer hThrough)
  | addConstraints cs => exact h.tended_addConstraints hTended (not_breakdown_of_answer hThrough)
  | removeConstraint id => exact h.tended_removeConstraint hTended (not_breakdown_of_answer hThrough)
  | addEditVariable v w id =>
    exact h.tended_addEditVariable hTended (not_breakdown_of_answer hThrough)
  | removeEditVariable v =>
    exact h.tended_removeEditVariable hTended (not_breakdown_of_answer hThrough)
  | suggestValue v x =>
    exact (h.tended_suggestValue hTended (not_breakdown_of_answer hThrough)).extend _
  | nameVariable v name => exact (hTended.extend _).congr rfl
  | fetchChanges => exact (hTended.extend _).congr rfl
  | reset => exact tended_withPivotLimit s.pivotLimit

theorem Coherent.tended_run (h : s.Coherent issued) (hTended : s.Tended steps)
    {ops : List (Operation α)} (hOk : s.RunsThrough ops) :
    (s.run ops).2.Tended (steps ++ s.runSteps ops) := by
  induction ops generalizing s issued steps with
  | nil => exact hTended.extend _
  | cons op rest ih =>
    obtain ⟨hFirst, hRest⟩ := runsThrough_cons.mp hOk
    obtain ⟨⟨later, hNext⟩, _⟩ := h.perform op
    rw [runSteps, ← List.append_assoc]
    exact ih hNext (h.tended_perform hTended hFirst) hRest

theorem tended_reached {limit : Nat} {ops : List (Operation α)}
    (hOk : (withPivotLimit limit : Solver α).RunsThrough ops) :
    (reached limit ops : Solver α).Tended ((withPivotLimit limit : Solver α).runSteps ops) :=
  have hStart : (withPivotLimit limit : Solver α).Tended [] := tended_withPivotLimit limit
  (coherent_withPivotLimit limit).tended_run hStart hOk

end Runs

end Solver

end SoftSimplex
