import SoftSimplex.Proofs.OperationEnds
import SoftSimplex.Proofs.SolverCoherence
import SoftSimplex.Proofs.TableauTrace
import SoftSimplex.Solver.Operation

/-!
# The steps of a run

An addition solves a new row for its subject, or inserts the row by a phase one, and settles. A removal
drops a marker and settles, and a suggestion moves a constant and repairs what it has moved. The steps of
an operation that breaks down end there, and what is refused beforehand takes none. A phase one that is
given up counts with its pivots, but nothing that it does stands.

Replaying the steps of a run from its first tableau makes the rows and the queue of its last one, whatever
its operations answer and in any arithmetic.
-/

namespace SoftSimplex.Solver
set_option autoImplicit false

open Tableau (Pivot Step)

variable {α : Type} [Scalar α]

def insertionSteps (s : Solver α) (c : Constraint α) : List (Step α) :=
  if s.hasConstraint c.id then []
  else
    let (row, tag, s) := s.encode c
    match Placement.of row tag with
    | .basic subject => .install subject row ::
        (s.absorb (s.tableau.install row subject)).tableau.settleSteps s.pivotLimit
    | .contradiction => []
    | .phaseOne =>
      let fresh : Symbol := ⟨.slack, s.lastSymbol + 1⟩
      let steps := s.tableau.phaseOneSteps s.pivotLimit fresh row
      match s.tableau.insertArtificially s.pivotLimit fresh row with
      | ⟨.ok true, t⟩ => steps ++ (s.absorb t).tableau.settleSteps s.pivotLimit
      | _ => [.rollBack (steps.flatMap Step.pivots)]

/-- The additions up to the first that fails. -/
def additionSteps (s : Solver α) : List (Constraint α) → List (Step α)
  | [] => []
  | c :: rest => s.insertionSteps c ++
      match s.addConstraint c with
      | ⟨.ok _, s⟩ => s.additionSteps rest
      | _ => []

def removalSteps (s : Solver α) (id : Nat) : List (Step α) :=
  match s.constraints.get? id with
  | none => []
  | some live =>
    match (s.tableau.forget live).dropMarker? live.tag.marker with
    | none => []
    | some t => .drop live.tag.marker :: t.settleSteps s.pivotLimit

def suggestionSteps (s : Solver α) (v : Variable) (x : α) : List (Step α) :=
  match s.edits.get? v with
  | none => []
  | some edit =>
    if !Scalar.isFinite x || x - edit.value == 0 then []
    else .shift edit.tag (x - edit.value) ::
      (s.tableau.shiftEdit edit.tag (x - edit.value)).dualSteps s.pivotLimit

def operationSteps (s : Solver α) : Operation α → List (Step α)
  | .addConstraint c => s.insertionSteps c
  | .addConstraints cs => s.additionSteps cs
  | .removeConstraint id => s.removalSteps id
  | .addEditVariable v w id =>
    match s.editRefusal? v w with
    | some _ => []
    | none => s.insertionSteps (.make id (.ofVariable v) .equal w)
  | .removeEditVariable v =>
    match s.edits.get? v with
    | none => []
    | some edit => s.removalSteps edit.constraint.id
  | .suggestValue v x => s.suggestionSteps v x
  | .fetchChanges => []
  | .nameVariable _ _ => []
  | .reset => [.reset]

def runSteps (s : Solver α) : List (Operation α) → List (Step α)
  | [] => []
  | op :: rest => s.operationSteps op ++ (s.perform op).2.runSteps rest

section Equations

variable {s : Solver α} {id : Nat} {v : Variable} {x : α} {live : LiveConstraint α} {t : Tableau α}
  {edit : Edit α}

theorem removalSteps_of_dropped (hFound : s.constraints.get? id = some live)
    (hDrop : (s.tableau.forget live).dropMarker? live.tag.marker = some t) :
    s.removalSteps id = .drop live.tag.marker :: t.settleSteps s.pivotLimit := by
  rw [removalSteps, hFound]
  dsimp only
  rw [hDrop]

theorem operationSteps_removeEditVariable (hFound : s.edits.get? v = some edit) :
    s.operationSteps (.removeEditVariable v) = s.removalSteps edit.constraint.id := by
  rw [operationSteps, hFound]

theorem suggestionSteps_of_moves (hFound : s.edits.get? v = some edit)
    (hFinite : Scalar.isFinite x = true) (hMoves : (x - edit.value == 0) = false) :
    s.suggestionSteps v x = .shift edit.tag (x - edit.value) ::
      (s.tableau.shiftEdit edit.tag (x - edit.value)).dualSteps s.pivotLimit := by
  rw [suggestionSteps, hFound]
  exact if_neg (by simp [hFinite, hMoves])

theorem suggestionSteps_of_still (hFound : s.edits.get? v = some edit)
    (hStill : !Scalar.isFinite x || x - edit.value == 0) : s.suggestionSteps v x = [] := by
  rw [suggestionSteps, hFound]
  exact if_pos hStill

end Equations

/-- The symbols that a run lets in behind the back of the queue, each with the value that it enters with. -/
def runEntries (s : Solver α) (ops : List (Operation α)) : List (Symbol × α) :=
  (s.runSteps ops).filterMap Step.entry?

/-- The rows that a run solves, before they are solved, each with the symbol that it is solved for. -/
def runSolvings (s : Solver α) (ops : List (Operation α)) : List (Symbol × Row α) :=
  (s.runSteps ops).filterMap Step.solving?

/-- The primal, dual and phase-one pivots of a run. -/
def runPivots (s : Solver α) (ops : List (Operation α)) : List Pivot :=
  (s.runSteps ops).flatMap Step.pivots

section Replay

open Tableau (SameBasis)

variable (s : Solver α)

theorem sameBasis_accept (c : Constraint α) (tag : Tag) :
    (s.tableau.replay (s.tableau.settleSteps s.pivotLimit)).SameBasis
      (s.accept c tag).state.tableau := by
  rw [← Tableau.settle_state, accept]
  dsimp only
  generalize s.tableau.settle s.pivotLimit = pass
  obtain ⟨result, t⟩ := pass
  cases result with
  | ok _ => exact ⟨rfl, rfl⟩
  | error cause => exact ⟨rfl, rfl⟩

theorem sameBasis_insertConstraint (c : Constraint α) :
    (s.tableau.replay (s.insertionSteps c)).SameBasis (s.insertConstraint c).state.tableau := by
  have hEncoded : s.tableau.SameBasis (s.encode c).2.2.tableau := ⟨rfl, rfl⟩
  have hDiscard : ∀ b : Solver α, s.tableau.SameBasis b.tableau →
      s.tableau.SameBasis (b.discard c (s.encode c).2.1).tableau := by
    intro b h
    rw [discard, tableau_release]
    exact ⟨h.rows, h.queue⟩
  rw [insertConstraint, insertionSteps]
  split
  · exact .refl _
  · dsimp only
    cases Placement.of (s.encode c).1 (s.encode c).2.1 with
    | basic subject =>
      have hInstalled := hEncoded.perform (.install subject (s.encode c).1)
      have hAbsorbed : (s.tableau.install (s.encode c).1 subject).SameBasis
          ((s.encode c).2.2.absorb ((s.encode c).2.2.tableau.install (s.encode c).1
            subject)).tableau := ⟨hInstalled.rows, hInstalled.queue⟩
      exact (hAbsorbed.replay _).trans (sameBasis_accept _ c _)
    | contradiction => exact hDiscard _ hEncoded
    | phaseOne =>
      have hPhaseOne := (s.encode c).2.2.tableau.sameBasis_insertArtificially
        (s.encode c).2.2.pivotLimit ⟨.slack, (s.encode c).2.2.lastSymbol + 1⟩ (s.encode c).1
      dsimp only [insertByPhaseOne]
      cases hPass : (s.encode c).2.2.tableau.insertArtificially (s.encode c).2.2.pivotLimit
        ⟨.slack, (s.encode c).2.2.lastSymbol + 1⟩ (s.encode c).1 with
      | mk result t =>
        rw [hPass] at hPhaseOne
        cases result with
        | error cause => exact hDiscard _ ⟨rfl, rfl⟩
        | ok satisfied =>
          cases satisfied with
          | false => exact hDiscard _ ⟨rfl, rfl⟩
          | true =>
            have hInserted := (hEncoded.replay _).trans hPhaseOne
            have hAbsorbed : (s.tableau.replay _).SameBasis (absorb { (s.encode c).2.2 with
                lastSymbol := (s.encode c).2.2.lastSymbol + 1 } t).tableau :=
              ⟨hInserted.rows, hInserted.queue⟩
            rw [Tableau.replay_append]
            exact (hAbsorbed.replay _).trans (sameBasis_accept _ c _)

theorem sameBasis_addConstraints (cs : List (Constraint α)) :
    (s.tableau.replay (s.additionSteps cs)).SameBasis (s.addConstraints cs).state.tableau := by
  induction cs generalizing s with
  | nil => exact .refl _
  | cons c rest ih =>
    have hFirst : (s.tableau.replay (s.insertionSteps c)).SameBasis (s.addConstraint c).state.tableau :=
      s.sameBasis_insertConstraint c
    rw [addConstraints, additionSteps, Tableau.replay_append]
    generalize s.addConstraint c = attempt at hFirst
    obtain ⟨result, next⟩ := attempt
    cases result with
    | ok _ => exact (hFirst.replay _).trans (ih next)
    | error e => exact hFirst

theorem sameBasis_forget (live : LiveConstraint α) :
    s.tableau.SameBasis (s.tableau.forget live) := by
  obtain ⟨objective, hSame⟩ := s.tableau.forget_eq live
  rw [hSame]
  exact ⟨rfl, rfl⟩

theorem sameBasis_removeConstraint (id : Nat) :
    (s.tableau.replay (s.removalSteps id)).SameBasis (s.removeConstraint id).state.tableau := by
  have hSettled : ∀ {live : LiveConstraint α} {t u : Tableau α} {result : Except Breakdown Unit},
      s.constraints.get? id = some live →
      (s.tableau.forget live).dropMarker? live.tag.marker = some t →
      t.settle s.pivotLimit = ⟨result, u⟩ → (s.tableau.replay (s.removalSteps id)).SameBasis u := by
    intro live t u result hFound hDrop hPass
    have hDropped := (s.sameBasis_forget live).dropMarker live.tag.marker
    have hEnd : u = _ := (congrArg Attempt.state hPass).symm.trans (t.settle_state s.pivotLimit)
    rw [hDrop, Option.getD_some] at hDropped
    rw [removalSteps_of_dropped hFound hDrop, hEnd]
    exact hDropped.replay _
  have hRemoves := s.removes id
  generalize s.removeConstraint id = a at hRemoves
  cases hRemoves with
  | unknown hNone =>
    rw [removalSteps, hNone]
    exact .refl _
  | @stuck live hFound hDrop =>
    rw [removalSteps, hFound]
    dsimp only
    rw [hDrop]
    exact s.sameBasis_forget live
  | broken hFound hDrop hPass =>
    have hEnd := hSettled hFound hDrop hPass
    exact ⟨hEnd.rows, hEnd.queue⟩
  | removed hFound hDrop hPass =>
    have hEnd := hSettled hFound hDrop hPass
    dsimp only [Attempt.done, retireEdit]
    rw [tableau_release]
    exact ⟨hEnd.rows, hEnd.queue⟩

theorem sameBasis_addEditVariable (v : Variable) (w : Strength α) (id : Nat) :
    (s.tableau.replay (s.operationSteps (.addEditVariable v w id))).SameBasis
      (s.addEditVariable v w id).state.tableau := by
  have hInserted := s.sameBasis_insertConstraint (.make id (.ofVariable v) .equal w)
  rw [addEditVariable, operationSteps]
  cases s.editRefusal? v w with
  | some e => exact .refl _
  | none =>
    dsimp only
    generalize s.insertConstraint (.make id (.ofVariable v) .equal w) = attempt at hInserted
    obtain ⟨result, next⟩ := attempt
    cases result with
    | ok tag => exact hInserted
    | error e => cases e <;> exact hInserted

theorem sameBasis_removeEditVariable (v : Variable) :
    (s.tableau.replay (s.operationSteps (.removeEditVariable v))).SameBasis
      (s.removeEditVariable v).state.tableau := by
  have hRemoved : ∀ {edit : Edit α} {a : Attempt SolverError Unit (Solver α)},
      s.edits.get? v = some edit →
      ({ s with edits := s.edits.erase v } : Solver α).removeConstraint edit.constraint.id = a →
      (s.tableau.replay (s.operationSteps (.removeEditVariable v))).SameBasis a.state.tableau := by
    intro edit a hFound hRemoval
    rw [operationSteps_removeEditVariable hFound, ← hRemoval]
    exact ({ s with edits := s.edits.erase v } : Solver α).sameBasis_removeConstraint edit.constraint.id
  have hRetires := s.retires v
  generalize s.removeEditVariable v = a at hRetires
  cases hRetires with
  | unknown hNone =>
    rw [operationSteps, hNone]
    exact .refl _
  | forgotten hFound hRemoval =>
    have hEnd := hRemoved hFound hRemoval
    exact ⟨hEnd.rows, hEnd.queue⟩
  | removed hFound hRemoval _ => exact hRemoved hFound hRemoval

theorem sameBasis_suggestValue (v : Variable) (x : α) :
    (s.tableau.replay (s.suggestionSteps v x)).SameBasis (s.suggestValue v x).state.tableau := by
  have hMoved : ∀ {edit : Edit α} {t : Tableau α} {result : Except Breakdown Unit},
      s.edits.get? v = some edit →
      (s.tableau.shiftEdit edit.tag (x - edit.value)).dualOptimize s.pivotLimit = ⟨result, t⟩ →
      Scalar.isFinite x = true → (x - edit.value == 0) = false →
      s.tableau.replay (s.suggestionSteps v x) = t := by
    intro edit t result hFound hPass hFinite hMoves
    have hEnd := Tableau.dualOptimizeWithin_state (s.tableau.shiftEdit edit.tag (x - edit.value))
      s.pivotLimit s.pivotLimit
    rw [suggestionSteps_of_moves hFound hFinite hMoves]
    exact hEnd.symm.trans (congrArg Attempt.state hPass)
  have hSuggests := s.suggests v x
  generalize s.suggestValue v x = a at hSuggests
  cases hSuggests with
  | unknown hNone =>
    rw [suggestionSteps, hNone]
    exact .refl _
  | notFinite hFound hInfinite =>
    rw [suggestionSteps_of_still hFound (by simp [hInfinite])]
    exact .refl _
  | same hFound hStill =>
    rw [suggestionSteps_of_still hFound (by simp [hStill])]
    exact ⟨rfl, rfl⟩
  | moved hFound hPass hFinite hMoves =>
    rw [hMoved hFound hPass hFinite hMoves]
    exact ⟨rfl, rfl⟩
  | broken hFound hPass hFinite hMoves =>
    rw [hMoved hFound hPass hFinite hMoves]
    exact ⟨rfl, rfl⟩

/-- The steps of an operation make its rows and its queue. -/
theorem sameBasis_perform (op : Operation α) :
    (s.tableau.replay (s.operationSteps op)).SameBasis (s.perform op).2.tableau := by
  cases op with
  | addConstraint c => exact s.sameBasis_insertConstraint c
  | addConstraints cs => exact s.sameBasis_addConstraints cs
  | removeConstraint id => exact s.sameBasis_removeConstraint id
  | addEditVariable v w id => exact s.sameBasis_addEditVariable v w id
  | removeEditVariable v => exact s.sameBasis_removeEditVariable v
  | suggestValue v x => exact s.sameBasis_suggestValue v x
  | fetchChanges => exact .refl _
  | nameVariable v name => exact ⟨rfl, rfl⟩
  | reset => exact .refl _

/-- The steps of a run make its rows and its queue. -/
theorem sameBasis_run (ops : List (Operation α)) :
    (s.tableau.replay (s.runSteps ops)).SameBasis (s.run ops).2.tableau := by
  induction ops generalizing s with
  | nil => exact .refl _
  | cons op rest ih =>
    rw [runSteps, Tableau.replay_append]
    exact ((s.sameBasis_perform op).replay _).trans (ih _)

end Replay

end SoftSimplex.Solver
