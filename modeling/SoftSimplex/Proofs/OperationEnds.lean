import SoftSimplex.Solver.Editing

/-!
# How operations end

An insertion, a removal, the registration and the retirement of an edit variable, and a suggestion: each
way in which one of them ends, with the answer and with the solver that it leaves.
-/

namespace SoftSimplex.Solver
set_option autoImplicit false

variable {α : Type} [Scalar α]

/-- How the row of a new constraint gets its place in the tableau of the solver that encoded it: the
solver then at hand, and the tableau with the row in it. -/
inductive Places (next : Solver α) (row : Row α) (tag : Tag) : Solver α → Tableau α → Prop where
  | basic {subject : Symbol} (placement : Placement.of row tag = .basic subject) :
      Places next row tag next (next.tableau.install row subject)
  | phaseOne {t : Tableau α} (placement : Placement.of row tag = .phaseOne)
      (pass : next.tableau.insertArtificially next.pivotLimit ⟨.slack, next.lastSymbol + 1⟩ row =
        ⟨.ok true, t⟩) :
      Places next row tag { next with lastSymbol := next.lastSymbol + 1 } t

inductive Adds (s : Solver α) (c : Constraint α) : Attempt SolverError Tag (Solver α) → Prop where
  | duplicate (live : s.hasConstraint c.id = true) : Adds s c (.failed .duplicateConstraint s)
  | unsatisfiable {after : Solver α} (new : s.hasConstraint c.id = false)
      (placement : (∀ subject, Placement.of (s.encode c).1 (s.encode c).2.1 ≠ .basic subject)) :
      Adds s c (.failed .unsatisfiableConstraint after)
  | stuck {after : Solver α} {cause : Breakdown} (new : s.hasConstraint c.id = false)
      (placement : Placement.of (s.encode c).1 (s.encode c).2.1 = .phaseOne)
      (pass : ((s.encode c).2.2.tableau.insertArtificially s.pivotLimit
        ⟨.slack, (s.encode c).2.2.lastSymbol + 1⟩ (s.encode c).1).result = .error cause) :
      Adds s c (.failed (.breakdown cause) after)
  | broken {after base : Solver α} {t u : Tableau α} {cause : Breakdown}
      (new : s.hasConstraint c.id = false)
      (place : Places (s.encode c).2.2 (s.encode c).1 (s.encode c).2.1 base t)
      (pass : ({ t with touched := [] } : Tableau α).settle s.pivotLimit = ⟨.error cause, u⟩) :
      Adds s c (.failed (.breakdown cause) after)
  | settled {base : Solver α} {t u : Tableau α} (new : s.hasConstraint c.id = false)
      (place : Places (s.encode c).2.2 (s.encode c).1 (s.encode c).2.1 base t)
      (pass : ({ t with touched := [] } : Tableau α).settle s.pivotLimit = ⟨.ok (), u⟩) :
      Adds s c (.done (s.encode c).2.1 (({ base.absorb t with
        constraints := s.constraints.insert c.id ⟨c, (s.encode c).2.1⟩ } : Solver α).absorb u))

/-- Once the row has its place, only settling can still fail. -/
theorem Adds.of_place {s base : Solver α} {c : Constraint α} {t : Tableau α}
    (hNew : s.hasConstraint c.id = false)
    (hPlace : Places (s.encode c).2.2 (s.encode c).1 (s.encode c).2.1 base t) :
    s.Adds c ((base.absorb t).accept c (s.encode c).2.1) := by
  have hConstraints : base.constraints = s.constraints := by
    cases hPlace <;> rfl
  have hLimit : base.pivotLimit = s.pivotLimit := by
    cases hPlace <;> rfl
  cases hPass : ({ t with touched := [] } : Tableau α).settle s.pivotLimit with
  | mk result u =>
    have hHere : ({ t with touched := [] } : Tableau α).settle base.pivotLimit = ⟨result, u⟩ :=
      hLimit.symm ▸ hPass
    rw [accept]
    dsimp only [absorb]
    rw [hHere, hConstraints]
    cases result with
    | ok _ => exact .settled hNew hPlace hPass
    | error cause => exact .broken hNew hPlace hPass

theorem adds (s : Solver α) (c : Constraint α) : s.Adds c (s.insertConstraint c) := by
  rw [insertConstraint]
  cases hNew : s.hasConstraint c.id with
  | true => exact .duplicate hNew
  | false =>
    dsimp only [Bool.false_eq_true, if_false]
    cases hPlacement : Placement.of (s.encode c).1 (s.encode c).2.1 with
    | basic subject => exact .of_place hNew (.basic hPlacement)
    | contradiction => exact .unsatisfiable hNew (by simp [hPlacement])
    | phaseOne =>
      dsimp only [insertByPhaseOne]
      cases hPass : (s.encode c).2.2.tableau.insertArtificially (s.encode c).2.2.pivotLimit
        ⟨.slack, (s.encode c).2.2.lastSymbol + 1⟩ (s.encode c).1 with
      | mk result t =>
        cases result with
        | error cause => exact .stuck hNew hPlacement (congrArg Attempt.result hPass)
        | ok satisfied =>
          cases satisfied with
          | true => exact .of_place hNew (.phaseOne hPlacement hPass)
          | false => exact .unsatisfiable hNew (by simp [hPlacement])

/-- An addition that succeeds is an insertion that does. -/
theorem insertConstraint_of_added {s : Solver α} {c : Constraint α}
    (hAdd : (s.addConstraint c).result = .ok ()) :
    ∃ tag, s.insertConstraint c = ⟨.ok tag, (s.addConstraint c).state⟩ := by
  rw [addConstraint] at hAdd ⊢
  cases hInsert : s.insertConstraint c with
  | mk result added =>
    rw [hInsert] at hAdd
    cases result with
    | ok tag => exact ⟨tag, rfl⟩
    | error e => cases hAdd

inductive Removes (s : Solver α) (id : Nat) : Attempt SolverError Unit (Solver α) → Prop where
  | unknown (missing : s.constraints.get? id = none) : Removes s id (.failed .unknownConstraint s)
  | stuck {live : LiveConstraint α} (found : s.constraints.get? id = some live)
      (drop : (s.tableau.forget live).dropMarker? live.tag.marker = none) :
      Removes s id (.failed (.breakdown .missingLeavingRow)
        { s with constraints := s.constraints.erase id, tableau := s.tableau.forget live })
  | broken {live : LiveConstraint α} {t u : Tableau α} {cause : Breakdown}
      (found : s.constraints.get? id = some live)
      (drop : (s.tableau.forget live).dropMarker? live.tag.marker = some t)
      (pass : t.settle s.pivotLimit = ⟨.error cause, u⟩) :
      Removes s id (.failed (.breakdown cause)
        (({ s with constraints := s.constraints.erase id } : Solver α).absorb u))
  | removed {live : LiveConstraint α} {t u : Tableau α} (found : s.constraints.get? id = some live)
      (drop : (s.tableau.forget live).dropMarker? live.tag.marker = some t)
      (pass : t.settle s.pivotLimit = ⟨.ok (), u⟩) :
      Removes s id (.done () (((({ s with constraints := s.constraints.erase id } :
        Solver α).absorb u).release live.constraint).retireEdit id))

theorem removes (s : Solver α) (id : Nat) : s.Removes id (s.removeConstraint id) := by
  rw [removeConstraint]
  cases hFound : s.constraints.get? id with
  | none => exact .unknown hFound
  | some live =>
    dsimp only
    cases hDrop : (s.tableau.forget live).dropMarker? live.tag.marker with
    | none => exact .stuck hFound hDrop
    | some t =>
      dsimp only
      cases hPass : t.settle s.pivotLimit with
      | mk result u =>
        cases result with
        | error cause => exact .broken hFound hDrop hPass
        | ok _ => exact .removed hFound hDrop hPass

inductive Registers (s : Solver α) (v : Variable) (w : Strength α) (id : Nat) :
    Attempt SolverError Unit (Solver α) → Prop where
  | refused {e : SolverError} (refusal : s.editRefusal? v w = some e) :
      Registers s v w id (.failed e s)
  | broken {e : SolverError} {cause : Breakdown} {next : Solver α}
      (insertion : s.insertConstraint (.make id (.ofVariable v) .equal w) = ⟨.error e, next⟩)
      (report : e = .breakdown cause ∨ cause = .editConstraintRejected) :
      Registers s v w id (.failed (.breakdown cause) next)
  | registered {tag : Tag} {next : Solver α} (allowed : s.editRefusal? v w = none)
      (insertion : s.insertConstraint (.make id (.ofVariable v) .equal w) = ⟨.ok tag, next⟩) :
      Registers s v w id (.done () { next with
        edits := next.edits.insert v ⟨tag, .make id (.ofVariable v) .equal w, 0⟩ })

theorem registers (s : Solver α) (v : Variable) (w : Strength α) (id : Nat) :
    s.Registers v w id (s.addEditVariable v w id) := by
  rw [addEditVariable]
  split
  · rename_i e hRefusal
    exact .refused hRefusal
  · rename_i hAllowed
    dsimp only
    cases hInsertion : s.insertConstraint (.make id (.ofVariable v) .equal w) with
    | mk result next =>
      cases result with
      | ok tag => exact .registered hAllowed hInsertion
      | error e =>
        cases e with
        | breakdown cause => exact .broken hInsertion (.inl rfl)
        | _ => exact .broken hInsertion (.inr rfl)

inductive Retires (s : Solver α) (v : Variable) : Attempt SolverError Unit (Solver α) → Prop where
  | unknown (missing : s.edits.get? v = none) : Retires s v (.failed .unknownEditVariable s)
  | forgotten {edit : Edit α} {next : Solver α} (found : s.edits.get? v = some edit)
      (removal : ({ s with edits := s.edits.erase v } : Solver α).removeConstraint
        edit.constraint.id = ⟨.error .unknownConstraint, next⟩) : Retires s v (.done () next)
  | removed {edit : Edit α} {a : Attempt SolverError Unit (Solver α)}
      (found : s.edits.get? v = some edit)
      (removal : ({ s with edits := s.edits.erase v } : Solver α).removeConstraint
        edit.constraint.id = a)
      (known : a.result ≠ .error .unknownConstraint) : Retires s v a

theorem retires (s : Solver α) (v : Variable) : s.Retires v (s.removeEditVariable v) := by
  rw [removeEditVariable]
  cases hFound : s.edits.get? v with
  | none => exact .unknown hFound
  | some edit =>
    dsimp only
    generalize hRemoval : ({ s with edits := s.edits.erase v } : Solver α).removeConstraint
      edit.constraint.id = a
    split
    · exact .forgotten hFound hRemoval
    · rename_i hOther
      refine .removed hFound hRemoval fun hUnknown => hOther a.state ?_
      exact congrArg (Attempt.mk · a.state) hUnknown

inductive Suggests (s : Solver α) (v : Variable) (x : α) :
    Attempt SolverError Unit (Solver α) → Prop where
  | unknown (missing : s.edits.get? v = none) : Suggests s v x (.failed .unknownEditVariable s)
  | notFinite {edit : Edit α} (found : s.edits.get? v = some edit)
      (infinite : Scalar.isFinite x = false) :
      Suggests s v x (.failed .nonFiniteValue s)
  | same {edit : Edit α} (found : s.edits.get? v = some edit) (still : (x - edit.value == 0) = true) :
      Suggests s v x (.done () { s with edits := s.edits.insert v { edit with value := x } })
  | moved {edit : Edit α} {t : Tableau α} (found : s.edits.get? v = some edit)
      (pass : (s.tableau.shiftEdit edit.tag (x - edit.value)).dualOptimize s.pivotLimit =
        ⟨.ok (), t⟩)
      (finite : Scalar.isFinite x = true) (moves : (x - edit.value == 0) = false) :
      Suggests s v x (.done ()
        (({ s with edits := s.edits.insert v { edit with value := x } } : Solver α).absorb t))
  | broken {edit : Edit α} {t : Tableau α} {cause : Breakdown}
      (found : s.edits.get? v = some edit)
      (pass : (s.tableau.shiftEdit edit.tag (x - edit.value)).dualOptimize s.pivotLimit =
        ⟨.error cause, t⟩)
      (finite : Scalar.isFinite x = true) (moves : (x - edit.value == 0) = false) :
      Suggests s v x (.failed (.breakdown cause)
        (({ s with edits := s.edits.insert v { edit with value := x } } : Solver α).absorb t))

theorem suggests (s : Solver α) (v : Variable) (x : α) : s.Suggests v x (s.suggestValue v x) := by
  rw [suggestValue]
  cases hFound : s.edits.get? v with
  | none => exact .unknown hFound
  | some edit =>
    dsimp only
    split
    · rename_i hInfinite
      exact .notFinite hFound (by simpa using hInfinite)
    · rename_i hFinite
      split
      · rename_i hStill
        exact .same hFound hStill
      · rename_i hMoves
        have hFinite : Scalar.isFinite x = true := by simpa using hFinite
        have hMoves : (x - edit.value == 0) = false := Bool.eq_false_iff.mpr hMoves
        cases hPass : (s.tableau.shiftEdit edit.tag (x - edit.value)).dualOptimize s.pivotLimit with
        | mk result t =>
          cases result with
          | ok _ => exact .moved hFound hPass hFinite hMoves
          | error cause => exact .broken hFound hPass hFinite hMoves

end SoftSimplex.Solver
