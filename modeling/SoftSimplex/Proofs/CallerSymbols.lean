import SoftSimplex.Proofs.InsertedRow
import SoftSimplex.Proofs.PassPivots
import SoftSimplex.Proofs.RunTrace
import SoftSimplex.Proofs.SolverRuns

/-!
# The caller's symbols in the tableau

After a run without a breakdown the restricted rows and the objective mention none of the caller's
symbols. No pivot of such a run lets one of them in or out, and neither does a pivot of the operation that
follows, even one that breaks down. A symbol of the caller stays basic until the solver is reset or its
row leaves with the marker of a constraint that is removed.
-/

namespace SoftSimplex
set_option autoImplicit false

open Tableau (KeepsCallers RestrictedSteps Step restrictedSteps_append restrictedSteps_nil
  restrictedSteps_rollBack)

namespace Solver

section Evictions

variable {α : Type} [Scalar α]

/-- The constraint that an operation asks to remove. -/
def removed? (s : Solver α) : Operation α → Option Nat
  | .removeConstraint id => some id
  | .removeEditVariable v => (s.edits.get? v).map fun edit => edit.constraint.id
  | _ => none

/-- Removing the constraint takes out the row of the symbol, in exchange for the constraint's marker. -/
def Evicts (s : Solver α) (id : Nat) (x : Symbol) : Prop :=
  ∃ live row, s.constraints.get? id = some live ∧ s.tableau.rows.get? live.tag.marker = none ∧
    (s.tableau.forget live).markerLeavingRow? live.tag.marker = some (x, row)

end Evictions

variable {issued : Set Symbol} {s next after base : Solver Rat} {c : Constraint Rat} {tag : Tag}
  {row : Row Rat} {t : Tableau Rat} {steps more : List (Step Rat)} {x : Symbol}

/-- Steps with pivots between restricted symbols, after which the caller's symbols that were basic still
are. -/
structure Confines (s : Solver Rat) (steps : List (Step Rat)) (after : Solver Rat) : Prop where
  restricted : RestrictedSteps steps
  keeps : s.tableau.KeepsCallers after.tableau

theorem confines_of_rows (h : after.tableau.rows = s.tableau.rows) : Confines s [] after :=
  ⟨restrictedSteps_nil, Tableau.keepsCallers_of_keys (congrArg SymbolMap.keys h)⟩

theorem Confines.trans (hFirst : Confines s steps next) (hMore : Confines next more after) :
    Confines s (steps ++ more) after where
  restricted := restrictedSteps_append.mpr ⟨hFirst.restricted, hMore.restricted⟩
  keeps := hFirst.keeps.trans hMore.keeps

section Insertion

theorem confines_accept (hDistinct : Set.InjOn Symbol.id issued) (h : s.tableau.Regular issued)
    (hOrderly : s.tableau.Orderly issued) :
    Confines s (s.tableau.settleSteps s.pivotLimit) (s.accept c tag).state := by
  have hSettled : Tableau.Confined issued _ _ (s.tableau.settle s.pivotLimit).state :=
    h.confined_settle hDistinct hOrderly
  refine ⟨hSettled.restricted, ?_⟩
  rw [accept]
  dsimp only
  generalize s.tableau.settle s.pivotLimit = pass at hSettled
  obtain ⟨result, t⟩ := pass
  cases result with
  | error cause => exact hSettled.keeps
  | ok _ => exact hSettled.keeps

/-- Settling once the row of a new constraint has its place. -/
theorem Sound.confines_placed (h : s.Sound issued)
    (hPlace : Places (s.encode c).2.2 (s.encode c).1 (s.encode c).2.1 base t)
    (hKeeps : s.tableau.KeepsCallers t) :
    Confines s ((base.absorb t).tableau.settleSteps base.pivotLimit)
      ((base.absorb t).accept c (s.encode c).2.1).state := by
  obtain ⟨more, _, hCode⟩ := h.encoded c
  obtain ⟨most, hReady⟩ := hPlace.ready hCode h
  have hSettled : Confines (base.absorb t) _ ((base.absorb t).accept c (s.encode c).2.1).state :=
    confines_accept hReady.numbered.distinct hReady.placed.regular hReady.placed.orderly
  exact ⟨hSettled.restricted, hKeeps.trans hSettled.keeps⟩

theorem Sound.confines_insertConstraint (h : s.Sound issued) (c : Constraint Rat) :
    Confines s (s.insertionSteps c) (s.insertConstraint c).state := by
  obtain ⟨more, _, hCode⟩ := h.encoded c
  have hEncoded : s.tableau.KeepsCallers (s.encode c).2.2.tableau :=
    Tableau.keepsCallers_of_keys (congrArg SymbolMap.keys hCode.rows)
  have hDiscard : ∀ b : Solver Rat, b.tableau.rows = s.tableau.rows →
      (b.discard c (s.encode c).2.1).tableau.rows = s.tableau.rows := by
    intro b hRows
    rw [discard, tableau_release]
    exact hRows
  rw [insertConstraint, insertionSteps]
  split
  · exact confines_of_rows rfl
  · dsimp only
    cases hPlacement : Placement.of (s.encode c).1 (s.encode c).2.1 with
    | basic subject =>
      obtain ⟨_, hNew⟩ := hCode.subject_new h.rest.regular.solved hPlacement
      have hSettled := h.confines_placed (.basic hPlacement)
        (hEncoded.trans (Tableau.keepsCallers_install hNew))
      exact ⟨hSettled.restricted, hSettled.keeps⟩
    | contradiction => exact confines_of_rows (hDiscard _ hCode.rows)
    | phaseOne =>
      obtain ⟨_, hKinds, _⟩ := hCode.of_phaseOne hPlacement
      have hOrderly := hCode.orderly_next h.rest
      have hFresh := fresh_slack hCode
      have hRestricted : RestrictedSteps ((s.encode c).2.2.tableau.phaseOneSteps
          (s.encode c).2.2.pivotLimit ⟨.slack, (s.encode c).2.2.lastSymbol + 1⟩ (s.encode c).1) :=
        hCode.regular.restricted_phaseOne hCode.numbered.distinct hOrderly hCode.addable_next hKinds
          hFresh
      dsimp only [insertByPhaseOne]
      cases hPass : (s.encode c).2.2.tableau.insertArtificially (s.encode c).2.2.pivotLimit
        ⟨.slack, (s.encode c).2.2.lastSymbol + 1⟩ (s.encode c).1 with
      | mk result t =>
        have hRefused := confines_of_rows (hDiscard (rollBack { (s.encode c).2.2 with
          lastSymbol := (s.encode c).2.2.lastSymbol + 1 } t) hCode.rows)
        cases result with
        | error cause => exact ⟨restrictedSteps_rollBack.mpr hRestricted, hRefused.keeps⟩
        | ok satisfied =>
          cases satisfied with
          | false => exact ⟨restrictedSteps_rollBack.mpr hRestricted, hRefused.keeps⟩
          | true =>
            have hInserted := hCode.regular.keepsCallers_insertArtificially hCode.numbered.distinct
              hOrderly hCode.addable_next hKinds hFresh hPass
            have hSettled := h.confines_placed (.phaseOne hPlacement hPass) (hEncoded.trans hInserted)
            exact ⟨restrictedSteps_append.mpr ⟨hRestricted, hSettled.restricted⟩,
              hSettled.keeps⟩

theorem Sound.confines_addConstraints (h : s.Sound issued) (cs : List (Constraint Rat)) :
    Confines s (s.additionSteps cs) (s.addConstraints cs).state := by
  induction cs generalizing s issued with
  | nil => exact confines_of_rows rfl
  | cons c rest ih =>
    have hFirst : Confines s (s.insertionSteps c) (s.addConstraint c).state :=
      h.confines_insertConstraint c
    have hKeeps := h.keeps_addConstraint c
    rw [addConstraints, additionSteps]
    cases hAdd : s.addConstraint c with
    | mk result next =>
      rw [hAdd] at hFirst hKeeps
      cases result with
      | error e => exact hFirst.trans (confines_of_rows rfl)
      | ok _ =>
        obtain ⟨more, hNext⟩ := (hKeeps rfl).sound
        exact hFirst.trans (ih hNext)

end Insertion

section Removal

/-- A removal settles what is left after the marker has been dropped. -/
theorem Sound.confines_removed (h : s.Sound issued) {live : LiveConstraint Rat} {id : Nat}
    (hGet : s.constraints.get? id = some live)
    (hDrop : (s.tableau.forget live).dropMarker? live.tag.marker = some t) :
    Tableau.Confined issued t (t.settleSteps s.pivotLimit) (t.settle s.pivotLimit).state := by
  have hDropped := h.dropped hGet hDrop
  exact hDropped.regular.confined_settle h.ledger.numbered.distinct hDropped.orderly

theorem Sound.restricted_removal (h : s.Sound issued) (id : Nat) :
    RestrictedSteps (s.removalSteps id) := by
  rw [removalSteps]
  cases hGet : s.constraints.get? id with
  | none => exact restrictedSteps_nil
  | some live =>
    dsimp only
    cases hDrop : (s.tableau.forget live).dropMarker? live.tag.marker with
    | none => exact restrictedSteps_nil
    | some t => exact (h.confines_removed hGet hDrop).restricted

/-- Dropping the marker is the only step of a removal that takes a caller's row out. -/
theorem Sound.evicts_of_dropped (h : s.Sound issued) {live : LiveConstraint Rat} {id : Nat}
    (hGet : s.constraints.get? id = some live)
    (hDrop : (s.tableau.forget live).dropMarker? live.tag.marker = some t)
    (hx : x ∈ s.tableau.rows.keys) (hKind : x.isExternal = true) (hGone : x ∉ t.rows.keys) :
    s.Evicts id x := by
  have hForgot := h.forgot hGet
  rw [← hForgot.rows] at hx
  have hMarker : live.tag.marker.isExternal = false :=
    (h.ledger.marks live (mem_values_of_get? hGet)).restricted live.tag.marker_mem_symbols
  rcases Tableau.dropMarker?_cases hDrop with ⟨row, hRow, rfl⟩ | ⟨hNone, leaving, row, hLeaving, rfl⟩
  · have hMember := hForgot.regular.solved.mem_of_get? h.ledger.numbered.distinct
      (h.ledger.marker_mem (mem_values_of_get? hGet)) hRow
    exact absurd (Tableau.keepsCallers_eraseRow (SymbolMap.mem_keys_of_mem hMember) hMarker x hx hKind)
      hGone
  · refine ⟨live, row, hGet, hForgot.rows ▸ hNone, ?_⟩
    rw [Tableau.keys_eliminate] at hGone
    have hId : x.id = leaving.id := by
      by_contra hne
      exact hGone (SymbolMap.mem_keys_erase_iff.mpr ⟨hx, hne⟩)
    have hKey := SymbolMap.mem_keys_of_mem (Tableau.mem_rows_of_markerLeavingRow? hLeaving)
    rw [SymbolMap.key_eq_of_id_eq hx hKey hId]
    exact hLeaving

theorem Sound.evicts_of_removal (h : s.Sound issued) (edits : Registry Variable (Edit Rat))
    (id : Nat) (hx : x ∈ s.tableau.rows.keys) (hKind : x.isExternal = true)
    (hGone : x ∉ (({ s with edits } : Solver Rat).removeConstraint id).state.tableau.rows.keys) :
    s.Evicts id x := by
  have hSettled : ∀ {live : LiveConstraint Rat} {t u : Tableau Rat} {result : Except Breakdown Unit},
      s.constraints.get? id = some live →
      (s.tableau.forget live).dropMarker? live.tag.marker = some t →
      t.settle s.pivotLimit = ⟨result, u⟩ → x ∉ u.rows.keys → s.Evicts id x := by
    intro live t u result hGet hDrop hPass hGone
    have hKeeps := (h.confines_removed hGet hDrop).keeps
    rw [hPass] at hKeeps
    exact h.evicts_of_dropped hGet hDrop hx hKind fun hStill => hGone (hKeeps x hStill hKind)
  have hEnd := ({ s with edits } : Solver Rat).removes id
  generalize ({ s with edits } : Solver Rat).removeConstraint id = a at hEnd hGone
  cases hEnd with
  | unknown _ => exact absurd hx hGone
  | stuck hGet _ => exact absurd ((h.forgot hGet).rows.symm ▸ hx) hGone
  | broken hGet hDrop hPass => exact hSettled hGet hDrop hPass hGone
  | removed hGet hDrop hPass =>
    dsimp only [Attempt.done, retireEdit] at hGone
    rw [tableau_release] at hGone
    exact hSettled hGet hDrop hPass hGone

end Removal

section Editing

theorem Sound.confines_addEditVariable (h : s.Sound issued) (v : Variable) (w : Strength Rat)
    (id : Nat) : Confines s (s.operationSteps (.addEditVariable v w id))
      (s.addEditVariable v w id).state := by
  rw [addEditVariable, operationSteps]
  cases s.editRefusal? v w with
  | some e => exact confines_of_rows rfl
  | none =>
    have hInsertion := h.confines_insertConstraint (.make id (.ofVariable v) .equal w)
    dsimp only
    generalize s.insertConstraint (.make id (.ofVariable v) .equal w) = attempt at hInsertion
    obtain ⟨result, next⟩ := attempt
    cases result with
    | ok tag => exact ⟨hInsertion.restricted, hInsertion.keeps⟩
    | error e => cases e <;> exact hInsertion

theorem Sound.confines_suggestValue (h : s.Sound issued) (v : Variable) (y : Rat) :
    Confines s (s.suggestionSteps v y) (s.suggestValue v y).state := by
  have hMoved : ∀ {edit : Edit Rat} {t : Tableau Rat} {result : Except Breakdown Unit},
      s.edits.get? v = some edit →
      (s.tableau.shiftEdit edit.tag (y - edit.value)).dualOptimize s.pivotLimit = ⟨result, t⟩ →
      Scalar.isFinite y = true → (y - edit.value == 0) = false →
      RestrictedSteps (s.suggestionSteps v y) ∧ s.tableau.KeepsCallers t := by
    intro edit t result hFound hPass hFinite hMoves
    obtain ⟨_, _, hShifted, _⟩ := h.shifted hFound y
    have hLive := mem_values_of_get? (h.ledger.liveEdit hFound).live
    have hShift : s.tableau.KeepsCallers (s.tableau.shiftEdit edit.tag (y - edit.value)) :=
      Tableau.keepsCallers_shiftEdit h.ledger.numbered.distinct h.rest.regular.solved
        (h.ledger.columns _ hLive) _
    have hRegular := hShifted.cells.regular h.rest.regular
    have hEnd : Tableau.Confined issued _ _
        ((s.tableau.shiftEdit edit.tag (y - edit.value)).dualOptimize s.pivotLimit).state :=
      hRegular.confined_dual h.ledger.numbered.distinct hShifted.orderly
    rw [hPass] at hEnd
    rw [suggestionSteps_of_moves hFound hFinite hMoves]
    exact ⟨hEnd.restricted, hShift.trans hEnd.keeps⟩
  have hSuggests := s.suggests v y
  generalize s.suggestValue v y = a at hSuggests
  cases hSuggests with
  | unknown hNone =>
    rw [suggestionSteps, hNone]
    exact confines_of_rows rfl
  | notFinite hFound hInfinite =>
    rw [suggestionSteps_of_still hFound (by simp [hInfinite])]
    exact confines_of_rows rfl
  | same hFound hStill =>
    rw [suggestionSteps_of_still hFound (by simp [hStill])]
    exact confines_of_rows rfl
  | moved hFound hPass hFinite hMoves =>
    obtain ⟨hSteps, hKeeps⟩ := hMoved hFound hPass hFinite hMoves
    exact ⟨hSteps, hKeeps⟩
  | broken hFound hPass hFinite hMoves =>
    obtain ⟨hSteps, hKeeps⟩ := hMoved hFound hPass hFinite hMoves
    exact ⟨hSteps, hKeeps⟩

end Editing

section Runs

theorem Sound.restricted_operation (h : s.Sound issued) (op : Operation Rat) :
    RestrictedSteps (s.operationSteps op) := by
  cases op with
  | addConstraint c => exact (h.confines_insertConstraint c).restricted
  | addConstraints cs => exact (h.confines_addConstraints cs).restricted
  | removeConstraint id => exact h.restricted_removal id
  | addEditVariable v w id => exact (h.confines_addEditVariable v w id).restricted
  | removeEditVariable v =>
    rw [operationSteps]
    cases s.edits.get? v with
    | none => exact restrictedSteps_nil
    | some edit => exact h.restricted_removal edit.constraint.id
  | suggestValue v y => exact (h.confines_suggestValue v y).restricted
  | fetchChanges => exact restrictedSteps_nil
  | nameVariable v name => exact restrictedSteps_nil
  | reset => exact List.forall_mem_nil _

/-- One operation, whatever it answers. -/
theorem Sound.evicts_of_perform (h : s.Sound issued) (op : Operation Rat)
    (hx : x ∈ s.tableau.rows.keys) (hKind : x.isExternal = true)
    (hGone : x ∉ (s.perform op).2.tableau.rows.keys) :
    op = .reset ∨ ∃ id, s.removed? op = some id ∧ s.Evicts id x := by
  have hStays : ∀ {steps : List (Step Rat)}, ¬ Confines s steps (s.perform op).2 :=
    fun hConfines => hGone (hConfines.keeps x hx hKind)
  cases op with
  | addConstraint c => exact absurd (h.confines_insertConstraint c) hStays
  | addConstraints cs => exact absurd (h.confines_addConstraints cs) hStays
  | removeConstraint id => exact .inr ⟨id, rfl, h.evicts_of_removal s.edits id hx hKind hGone⟩
  | addEditVariable v w id => exact absurd (h.confines_addEditVariable v w id) hStays
  | removeEditVariable v =>
    change x ∉ (s.removeEditVariable v).state.tableau.rows.keys at hGone
    have hEnd := s.retires v
    generalize s.removeEditVariable v = a at hEnd hGone
    cases hEnd with
    | unknown _ => exact absurd hx hGone
    | @forgotten edit next hFound hRemoval =>
      refine .inr ⟨_, by rw [removed?, hFound, Option.map_some], ?_⟩
      refine h.evicts_of_removal (s.edits.erase v) _ hx hKind ?_
      rw [hRemoval]
      exact hGone
    | @removed edit a hFound hRemoval _ =>
      refine .inr ⟨_, by rw [removed?, hFound, Option.map_some], ?_⟩
      refine h.evicts_of_removal (s.edits.erase v) _ hx hKind ?_
      rw [hRemoval]
      exact hGone
  | suggestValue v y => exact absurd (h.confines_suggestValue v y) hStays
  | fetchChanges => exact absurd hx hGone
  | nameVariable v name => exact absurd hx hGone
  | reset => exact .inl rfl

/-- A run without a breakdown, and one operation more. -/
theorem Sound.restricted_run (h : s.Sound issued) {ops : List (Operation Rat)}
    (hOk : s.RunsThrough ops) (op : Operation Rat) :
    RestrictedSteps (s.runSteps (ops ++ [op])) := by
  induction ops generalizing s issued with
  | nil =>
    rw [List.nil_append, runSteps, runSteps, List.append_nil]
    exact h.restricted_operation op
  | cons first rest ih =>
    obtain ⟨hFirst, hRest⟩ := runsThrough_cons.mp hOk
    obtain ⟨⟨more, hNext⟩, _⟩ := h.perform first hFirst
    rw [List.cons_append, runSteps]
    exact restrictedSteps_append.mpr ⟨h.restricted_operation first, ih hNext hRest⟩

end Runs

theorem callers_confined_of_run (limit : Nat) (ops : List (Operation Rat))
    (hOk : (withPivotLimit limit : Solver Rat).RunsThrough ops) :
    let s : Solver Rat := reached limit ops
    (∀ e ∈ s.tableau.rows.entries, e.1.isExternal = false →
      e.2.AllColumns fun c => c.isExternal = false) ∧
    (s.tableau.objective.AllColumns fun c => c.isExternal = false) ∧
    ∀ op : Operation Rat,
      (∀ p ∈ (withPivotLimit limit : Solver Rat).runPivots (ops ++ [op]),
        p.leaving.isExternal = false ∧ p.entering.isExternal = false) ∧
      ∀ x ∈ s.tableau.rows.keys, x.isExternal = true → x ∉ (s.perform op).2.tableau.rows.keys →
        op = .reset ∨ ∃ id, s.removed? op = some id ∧ s.Evicts id x := by
  intro s
  obtain ⟨issued, hSound⟩ := sound_reached hOk
  have hSeparate := hSound.rest.regular.separate
  refine ⟨hSeparate.rows, hSeparate.objective, fun op => ⟨?_, fun x hx hKind hGone => ?_⟩⟩
  · exact (sound_withPivotLimit limit).restricted_run hOk op
  · exact hSound.evicts_of_perform op hx hKind hGone

/-- Two slacks leave in the course of the run. After its first two operations both numbers are basic, and
removing their sum takes out the second one. -/
theorem callers_confined_of_splitOfTen :
    ((withPivotLimit 10 : Solver Rat).runPivots (splitOfTen ++ [.removeConstraint 1]) =
      [⟨⟨.slack, 7⟩, ⟨.error, 5⟩⟩, ⟨⟨.slack, 9⟩, ⟨.slack, 6⟩⟩] ∧
      ∀ p ∈ (withPivotLimit 10 : Solver Rat).runPivots (splitOfTen ++ [.removeConstraint 1]),
        p.leaving.isExternal = false ∧ p.entering.isExternal = false) ∧
    (reached 10 (splitOfTen.take 2)).tableau.rows.keys = [⟨.external, 1⟩, ⟨.external, 2⟩] ∧
    ∃ id, (reached 10 (splitOfTen.take 2)).removed? (.removeConstraint 1) = some id ∧
      (reached 10 (splitOfTen.take 2)).Evicts id ⟨.external, 2⟩ := by
  obtain ⟨_, _, hAfter⟩ := callers_confined_of_run 10 splitOfTen (by decide +kernel)
  obtain ⟨hPivots, _⟩ := hAfter (.removeConstraint 1)
  obtain ⟨_, _, hEarlier⟩ := callers_confined_of_run 10 (splitOfTen.take 2) (by decide +kernel)
  obtain ⟨_, hLost⟩ := hEarlier (.removeConstraint 1)
  have hEvicted := hLost ⟨.external, 2⟩ (by decide +kernel) rfl (by decide +kernel)
  exact ⟨⟨by decide +kernel, hPivots⟩, by decide +kernel, hEvicted.resolve_left (by simp)⟩

end Solver

end SoftSimplex
