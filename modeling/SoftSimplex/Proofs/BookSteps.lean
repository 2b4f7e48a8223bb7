import SoftSimplex.Proofs.CoherentRuns

/-!
# Steps of the books

The books of a solver are its live constraints, its tracked variables and its symbol counter. Operations
change them in steps of three kinds: a constraint comes in with the references that its encoding has
taken, a live constraint goes and gives its references back, or only the counter goes up. Two things are
no such steps: a removal that breaks down keeps the references of a constraint that is gone, and a reset
starts new books.
-/

namespace SoftSimplex
set_option autoImplicit false

namespace Operation

variable {α : Type} [Scalar α]

def isRemoval : Operation α → Bool
  | .removeConstraint _ => true
  | .removeEditVariable _ => true
  | _ => false

def isReset : Operation α → Bool
  | .reset => true
  | _ => false

end Operation

namespace Solver

variable {α : Type} [Scalar α] {issued : Set Symbol} {s next base : Solver α} {c : Constraint α}
  {row : Row α} {tag : Tag} {t : Tableau α}

inductive BookStep (s next : Solver α) : Prop where
  | kept (constraints : next.constraints = s.constraints) (tracked : next.tracked = s.tracked)
      (later : s.lastSymbol ≤ next.lastSymbol)
  | added (c : Constraint α) (new : s.constraints.get? c.id = none)
      (constraints : next.constraints = s.constraints.insert c.id ⟨c, (s.encode c).2.1⟩)
      (tracked : next.tracked = (s.encode c).2.2.tracked)
      (later : (s.encode c).2.2.lastSymbol ≤ next.lastSymbol)
  | removed (id : Nat) (live : LiveConstraint α) (found : s.constraints.get? id = some live)
      (constraints : next.constraints = s.constraints.erase id)
      (tracked : next.tracked =
        s.tracked.releaseAll (mentions live.constraint.expression.terms))
      (later : s.lastSymbol ≤ next.lastSymbol)

/-- One step of the books after the other. -/
def BookSteps : Solver α → Solver α → Prop := Relation.ReflTransGen BookStep

theorem BookSteps.single (h : BookStep s next) : BookSteps s next := Relation.ReflTransGen.single h

section Addition

theorem Restores.bookStep (h : Restores s next) : BookStep s next := by
  have hSame := h.same
  refine .kept ?_ ?_ h.later <;> rw [hSame]

theorem exists_accept (s : Solver α) (c : Constraint α) (tag : Tag) : ∃ u, (s.accept c tag).state =
    ({ s with constraints := s.constraints.insert c.id ⟨c, tag⟩ } : Solver α).absorb u := by
  rw [accept]
  dsimp only
  split <;> exact ⟨_, rfl⟩

theorem Places.bookStep (hNew : s.hasConstraint c.id = false)
    (hPlace : Places (s.encode c).2.2 (s.encode c).1 (s.encode c).2.1 base t) :
    BookStep s ((base.absorb t).accept c (s.encode c).2.1).state := by
  obtain ⟨u, hState⟩ := exists_accept (base.absorb t) c (s.encode c).2.1
  rw [hState]
  have hGet := get?_of_not_hasConstraint hNew
  cases hPlace with
  | basic => exact .added c hGet rfl rfl le_rfl
  | phaseOne => exact .added c hGet rfl rfl (Nat.le_succ _)

theorem Coherent.bookStep_insertConstraint (h : s.Coherent issued) (c : Constraint α) :
    BookStep s (s.insertConstraint c).state := by
  rw [insertConstraint]
  cases hNew : s.hasConstraint c.id with
  | true => exact .kept rfl rfl le_rfl
  | false =>
    dsimp only [Bool.false_eq_true, if_false]
    cases hPlacement : Placement.of (s.encode c).1 (s.encode c).2.1 with
    | basic subject => exact Places.bookStep hNew (.basic hPlacement)
    | contradiction =>
      obtain ⟨more, hEncodes⟩ := h.encodes c
      exact (h.restores_discard c hEncodes.later id fun _ hv => hv).bookStep
    | phaseOne =>
      dsimp only [insertByPhaseOne]
      cases hPass : (s.encode c).2.2.tableau.insertArtificially (s.encode c).2.2.pivotLimit
        ⟨.slack, (s.encode c).2.2.lastSymbol + 1⟩ (s.encode c).1 with
      | mk result u =>
        cases result with
        | error _ => exact (h.restores_rollBack c u).bookStep
        | ok satisfied =>
          cases satisfied with
          | false => exact (h.restores_rollBack c u).bookStep
          | true => exact Places.bookStep hNew (.phaseOne hPlacement hPass)

theorem Coherent.bookSteps_addConstraints (h : s.Coherent issued) (cs : List (Constraint α)) :
    BookSteps s (s.addConstraints cs).state := by
  induction cs generalizing s issued with
  | nil => exact .refl
  | cons c rest ih =>
    have hFirst : BookStep s (s.addConstraint c).state := h.bookStep_insertConstraint c
    rw [Solver.addConstraints]
    split
    · rename_i next hAdd
      obtain ⟨later, hNext⟩ := (h.addConstraint c).coherent
      rw [hAdd] at hFirst hNext
      exact .head hFirst (ih hNext)
    · exact .single hFirst

theorem Coherent.bookStep_addEditVariable (h : s.Coherent issued) (v : Variable) (w : Strength α)
    (id : Nat) : BookStep s (s.addEditVariable v w id).state := by
  have hInsert := h.bookStep_insertConstraint (.make id (.ofVariable v) .equal w)
  have hRegisters := s.registers v w id
  generalize s.addEditVariable v w id = a at hRegisters
  cases hRegisters with
  | refused => exact .kept rfl rfl le_rfl
  | broken hInsertion =>
    rw [hInsertion] at hInsert
    exact hInsert
  | registered _ hInsertion =>
    rw [hInsertion] at hInsert
    cases hInsert with
    | kept hConstraints hTracked hLater => exact .kept hConstraints hTracked hLater
    | added c hNew hConstraints hTracked hLater => exact .added c hNew hConstraints hTracked hLater
    | removed id live hFound hConstraints hTracked hLater =>
      exact .removed id live hFound hConstraints hTracked hLater

end Addition

section Removal

/-- The edit variables have no say in the books. -/
theorem bookStep_removeConstraint (s : Solver α) (edits : Registry Variable (Edit α)) (id : Nat)
    (hOk : ∀ cause, (({ s with edits } : Solver α).removeConstraint id).result ≠
      .error (.breakdown cause)) :
    BookStep s (({ s with edits } : Solver α).removeConstraint id).state := by
  have hRemoves := ({ s with edits } : Solver α).removes id
  generalize ({ s with edits } : Solver α).removeConstraint id = a at hRemoves hOk
  cases hRemoves with
  | unknown => exact .kept rfl rfl le_rfl
  | stuck => exact absurd rfl (hOk _)
  | broken => exact absurd rfl (hOk _)
  | @removed live t u hFound hDrop hPass =>
    obtain ⟨dropped, hRelease, _⟩ := release_eq_markAll
      ((({ s with edits, constraints := s.constraints.erase id } : Solver α).absorb u))
      live.constraint
    refine .removed id live hFound ?_ ?_ ?_
    · exact congrArg Solver.constraints hRelease
    · exact congrArg Solver.tracked hRelease
    · exact (congrArg Solver.lastSymbol hRelease).ge

theorem bookStep_removeEditVariable (s : Solver α) (v : Variable)
    (hOk : ∀ cause, (s.removeEditVariable v).result ≠ .error (.breakdown cause)) :
    BookStep s (s.removeEditVariable v).state := by
  have hRetires := s.retires v
  generalize s.removeEditVariable v = a at hRetires hOk
  cases hRetires with
  | unknown => exact .kept rfl rfl le_rfl
  | @forgotten edit next _ hRemoval =>
    have hStep := bookStep_removeConstraint s (s.edits.erase v) edit.constraint.id
    rw [hRemoval] at hStep
    exact hStep fun cause hCause => by cases hCause
  | @removed edit a _ hRemoval _ =>
    have hStep := bookStep_removeConstraint s (s.edits.erase v) edit.constraint.id
    rw [hRemoval] at hStep
    exact hStep hOk

end Removal

theorem bookStep_suggestValue (s : Solver α) (v : Variable) (x : α) :
    BookStep s (s.suggestValue v x).state := by
  have hSuggests := s.suggests v x
  generalize s.suggestValue v x = a at hSuggests
  cases hSuggests <;> exact .kept rfl rfl le_rfl

section Runs

theorem Coherent.bookSteps_perform (h : s.Coherent issued) (op : Operation α)
    (hReset : op.isReset = false)
    (hRemoval : op.isRemoval = true → (s.perform op).1.isBreakdown = false) :
    BookSteps s (s.perform op).2 := by
  cases op with
  | addConstraint c => exact .single (h.bookStep_insertConstraint c)
  | addConstraints cs => exact h.bookSteps_addConstraints cs
  | removeConstraint id =>
    exact .single (bookStep_removeConstraint s s.edits id (not_breakdown_of_answer (hRemoval rfl)))
  | addEditVariable v w id => exact .single (h.bookStep_addEditVariable v w id)
  | removeEditVariable v =>
    exact .single (bookStep_removeEditVariable s v (not_breakdown_of_answer (hRemoval rfl)))
  | suggestValue v x => exact .single (bookStep_suggestValue s v x)
  | fetchChanges => exact .single (.kept rfl rfl le_rfl)
  | nameVariable v name => exact .single (.kept rfl rfl le_rfl)
  | reset => cases hReset

/-- No removal of a run answers with a breakdown. -/
def RemovesThrough (s : Solver α) : List (Operation α) → Prop
  | [] => True
  | op :: rest => (op.isRemoval = true → (s.perform op).1.isBreakdown = false) ∧
      (s.perform op).2.RemovesThrough rest

instance decidableRemovesThrough :
    ∀ (s : Solver α) (ops : List (Operation α)), Decidable (s.RemovesThrough ops)
  | _, [] => .isTrue trivial
  | s, op :: rest => @instDecidableAnd _ _ _ (decidableRemovesThrough (s.perform op).2 rest)

theorem RunsThrough.removesThrough {ops : List (Operation α)} (h : s.RunsThrough ops) :
    s.RemovesThrough ops := by
  induction ops generalizing s with
  | nil => exact trivial
  | cons op rest ih =>
    obtain ⟨hFirst, hRest⟩ := runsThrough_cons.mp h
    exact ⟨fun _ => hFirst, ih hRest⟩

theorem Coherent.bookSteps_run (h : s.Coherent issued) {ops : List (Operation α)}
    (hReset : ∀ op ∈ ops, op.isReset = false) (hRemoves : s.RemovesThrough ops) :
    BookSteps s (s.run ops).2 := by
  induction ops generalizing s issued with
  | nil => exact .refl
  | cons op rest ih =>
    obtain ⟨hOp, hRest⟩ := List.forall_mem_cons.mp hReset
    obtain ⟨⟨later, hNext⟩, _⟩ := h.perform op
    exact (h.bookSteps_perform op hOp hRemoves.1).trans (ih hNext hRest hRemoves.2)

end Runs

end Solver

end SoftSimplex
