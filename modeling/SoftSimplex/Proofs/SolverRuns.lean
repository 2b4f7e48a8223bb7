import SoftSimplex.Proofs.EditVariables
import SoftSimplex.Solver.Operation

/-!
# Runs keep the invariant

One operation after the other, a solver stays sound up to the first breakdown, refused operations
included. As long as no required equation is removed, the dummies stay pinned to zero as well.
-/

namespace SoftSimplex
set_option autoImplicit false

deriving instance DecidableEq for Term, Strength, Expression, Constraint

namespace Solver

section Runs

variable {α : Type} [Scalar α]

/-- Whether an operation removes a live equation that must hold. -/
def removesEquation (s : Solver α) : Operation α → Bool
  | .removeConstraint id =>
    match s.constraints.get? id with
    | some live => live.constraint.isRequired && decide (live.constraint.relation = .equal)
    | none => false
  | _ => false

/-- No operation of a run removes an equation that must hold. -/
def KeepsEquations (s : Solver α) : List (Operation α) → Prop
  | [] => True
  | op :: rest => s.removesEquation op = false ∧ (s.perform op).2.KeepsEquations rest

/-- The solver that a run of a new one reaches. -/
def reached (limit : Nat) (ops : List (Operation α)) : Solver α := ((withPivotLimit limit).run ops).2

/-- No operation of a run answers with a breakdown. -/
def RunsThrough (s : Solver α) (ops : List (Operation α)) : Prop :=
  ∀ reply ∈ (s.run ops).1, reply.isBreakdown = false

instance decidableKeepsEquations :
    ∀ (s : Solver α) (ops : List (Operation α)), Decidable (s.KeepsEquations ops)
  | _, [] => .isTrue trivial
  | s, op :: rest => @instDecidableAnd _ _ _ (decidableKeepsEquations (s.perform op).2 rest)

instance decidableRunsThrough (s : Solver α) (ops : List (Operation α)) :
    Decidable (s.RunsThrough ops) :=
  inferInstanceAs (Decidable (∀ reply ∈ (s.run ops).1, reply.isBreakdown = false))

theorem runsThrough_cons {s : Solver α} {op : Operation α} {rest : List (Operation α)} :
    s.RunsThrough (op :: rest) ↔
      (s.perform op).1.isBreakdown = false ∧ (s.perform op).2.RunsThrough rest :=
  List.forall_mem_cons

theorem not_breakdown_of_answer {a : Attempt SolverError Unit (Solver α)}
    (h : (answer a).1.isBreakdown = false) (cause : Breakdown) :
    a.result ≠ .error (.breakdown cause) := by
  intro hCause
  rw [answer, Reply.isBreakdown, hCause] at h
  cases h

end Runs

variable {issued : Set Symbol} {s next after : Solver Rat} {op : Operation Rat}

theorem Sound.congr (h : s.Sound issued) (hConstraints : next.constraints = s.constraints)
    (hEdits : next.edits = s.edits) (hTracked : next.tracked = s.tracked)
    (hLast : next.lastSymbol = s.lastSymbol) (hTableau : next.tableau = s.tableau) :
    next.Sound issued where
  ledger := h.ledger.congr hConstraints hEdits hTracked hLast
  rest := hTableau ▸ h.rest
  meaning := hTableau ▸ h.meaning.congr hConstraints hEdits hTracked

theorem ledger_empty (limit : Nat) : (withPivotLimit limit : Solver Rat).Ledger ∅ where
  numbered := ⟨by simp, by simp, by simp⟩
  named := by
    constructor
    · intro v x hx
      cases hx
    · intro v w x hx
      cases hx
  counts := by
    constructor
    · intro v hv
      cases hv
    · intro v r hr
      cases hr
  keys := by
    intro e he
    cases he
  marks := by
    intro l hl
    cases hl
  columns := by
    intro l hl
    cases hl
  apart := .nil
  edits := by
    intro e he
    cases he

theorem regular_empty : (Tableau.empty : Tableau Rat).Regular ∅ := by
  refine ⟨⟨?_, ⟨?_, ?_, ?_⟩, ?_⟩, ⟨?_, ?_, ?_⟩, ⟨?_, ?_, ?_⟩⟩ <;>
    · intro e he
      cases he

theorem sound_withPivotLimit (limit : Nat) : (withPivotLimit limit : Solver Rat).Sound ∅ where
  ledger := ledger_empty limit
  rest := by
    refine ⟨regular_empty, ?_, ?_, rfl, rfl⟩ <;>
      · intro e he
        cases he
  meaning := by
    refine ⟨fun a => ⟨?_, ?_⟩, rfl, 0, fun a _ => ?_⟩
    · intro _ l hl
      cases hl
    · intro _ e he
      cases he
    · rfl

/-- What an operation that does not break down keeps. -/
structure Keeps (s after : Solver Rat) : Prop where
  sound : ∃ issued, after.Sound issued
  pinned : s.tableau.Pinned → after.tableau.Pinned

theorem Keeps.refl (h : s.Sound issued) : s.Keeps s := ⟨⟨issued, h⟩, id⟩

theorem Keeps.trans (h : s.Keeps next) (hMore : next.Keeps after) : s.Keeps after :=
  ⟨hMore.sound, fun hPinned => hMore.pinned (h.pinned hPinned)⟩

theorem Sound.keeps_addConstraint (h : s.Sound issued) (c : Constraint Rat)
    (hOk : (answer (s.addConstraint c)).1.isBreakdown = false) :
    s.Keeps (s.addConstraint c).state := by
  have hInsertion := h.insertion c
  rw [addConstraint] at hOk ⊢
  cases hInsertion with
  | duplicate _ _ hState =>
    dsimp only
    rw [hState]
    exact .refl h
  | broken cause hResult =>
    refine absurd ?_ (not_breakdown_of_answer hOk cause)
    rw [hResult]
    rfl
  | accepted _ more _ _ hAccepted => exact ⟨⟨more, hAccepted.sound⟩, hAccepted.pinned⟩
  | refused _ more _ _ hRefused _ => exact ⟨⟨more, hRefused.sound⟩, hRefused.pinned⟩

theorem Sound.keeps_addConstraints (h : s.Sound issued) (cs : List (Constraint Rat))
    (hOk : (answer (s.addConstraints cs)).1.isBreakdown = false) :
    s.Keeps (s.addConstraints cs).state := by
  induction cs generalizing s issued with
  | nil => exact .refl h
  | cons c rest ih =>
    have hFirst := h.keeps_addConstraint c
    rw [addConstraints] at hOk ⊢
    split at hOk
    · rename_i next hAdd
      rw [hAdd] at hFirst
      obtain ⟨⟨more, hNext⟩, hPinned⟩ := hFirst rfl
      exact Keeps.trans ⟨⟨more, hNext⟩, hPinned⟩ (ih hNext hOk)
    · exact hFirst hOk

theorem Editing.keeps {a : Attempt SolverError Unit (Solver Rat)} (hEditing : Editing s a)
    (h : s.Sound issued) (hOk : (answer a).1.isBreakdown = false) : s.Keeps a.state := by
  cases hEditing with
  | broken cause hResult =>
    exact absurd hResult (not_breakdown_of_answer hOk cause)
  | refused _ _ hState =>
    rw [hState]
    exact .refl h
  | done more _ hSound hPinned => exact ⟨⟨more, hSound⟩, hPinned⟩

theorem Sound.keeps_removeConstraint (h : s.Sound issued) (id : Nat)
    (hOk : (answer (s.removeConstraint id)).1.isBreakdown = false) :
    (∃ more, (s.removeConstraint id).state.Sound more) ∧
      (s.removesEquation (.removeConstraint id) = false → s.Keeps (s.removeConstraint id).state) := by
  cases hGet : s.constraints.get? id with
  | none =>
    rw [removeConstraint, hGet]
    exact ⟨⟨issued, h⟩, fun _ => .refl h⟩
  | some live =>
    have hMember := mem_values_of_get? hGet
    cases h.removal_of_live hGet with
    | broken cause hResult =>
      exact absurd hResult (not_breakdown_of_answer hOk cause)
    | removed _ hRemoved =>
      refine ⟨⟨issued, hRemoved.sound⟩, fun hKeeps => ⟨⟨issued, hRemoved.sound⟩, fun hPinned => ?_⟩⟩
      refine hRemoved.pinned hPinned (hPinned.not_loosens h.rest.regular.solved
        h.ledger.numbered.distinct (h.ledger.marker_mem hMember) ?_)
      by_contra hDummy
      obtain ⟨hRequired, hRelation⟩ :=
        (h.ledger.marks live hMember).isDummy_marker_iff.mp (by simpa using hDummy)
      simp [removesEquation, hGet, hRequired, hRelation] at hKeeps

theorem Sound.perform (h : s.Sound issued) (op : Operation Rat)
    (hOk : (s.perform op).1.isBreakdown = false) :
    (∃ more, (s.perform op).2.Sound more) ∧
      (s.removesEquation op = false → s.Keeps (s.perform op).2) := by
  have hBoth : ∀ {after : Solver Rat}, s.Keeps after →
      (∃ more, after.Sound more) ∧ (s.removesEquation op = false → s.Keeps after) :=
    fun hKeeps => ⟨hKeeps.sound, fun _ => hKeeps⟩
  cases op with
  | addConstraint c => exact hBoth (h.keeps_addConstraint c hOk)
  | addConstraints cs => exact hBoth (h.keeps_addConstraints cs hOk)
  | removeConstraint id => exact h.keeps_removeConstraint id hOk
  | addEditVariable v w id => exact hBoth ((h.addition_edit v w id).keeps h hOk)
  | removeEditVariable v => exact hBoth ((h.removal_edit v).keeps h hOk)
  | suggestValue v x => exact hBoth ((h.suggestion v x).keeps h hOk)
  | fetchChanges => exact hBoth ⟨⟨issued, h.congr rfl rfl rfl rfl rfl⟩, id⟩
  | nameVariable v name => exact hBoth ⟨⟨issued, h.congr rfl rfl rfl rfl rfl⟩, id⟩
  | reset =>
    refine hBoth ⟨⟨∅, sound_withPivotLimit s.pivotLimit⟩, fun _ e he => ?_⟩
    cases he

theorem Sound.run (h : s.Sound issued) (ops : List (Operation Rat)) (hOk : s.RunsThrough ops) :
    (∃ more, (s.run ops).2.Sound more) ∧
      (s.tableau.Pinned → s.KeepsEquations ops → (s.run ops).2.tableau.Pinned) := by
  induction ops generalizing s issued with
  | nil => exact ⟨⟨issued, h⟩, fun hPinned _ => hPinned⟩
  | cons op rest ih =>
    obtain ⟨hFirst, hRest⟩ := runsThrough_cons.mp hOk
    obtain ⟨⟨more, hNext⟩, hKeeps⟩ := h.perform op hFirst
    obtain ⟨hSound, hPinnedRest⟩ := ih hNext hRest
    refine ⟨hSound, fun hPinned hEquations => ?_⟩
    exact hPinnedRest ((hKeeps hEquations.1).pinned hPinned) hEquations.2

section Reached

variable {limit : Nat} {ops : List (Operation Rat)}
  (hOk : (withPivotLimit limit : Solver Rat).RunsThrough ops)
include hOk

theorem sound_reached : ∃ issued, (reached limit ops : Solver Rat).Sound issued :=
  ((sound_withPivotLimit limit).run ops hOk).1

theorem pinned_reached (hKeeps : (withPivotLimit limit : Solver Rat).KeepsEquations ops) :
    (reached limit ops : Solver Rat).tableau.Pinned := by
  refine ((sound_withPivotLimit limit).run ops hOk).2 (fun e he => ?_) hKeeps
  cases he

end Reached

/-- Two numbers that add up to ten. The first one is to be four, but the second one must be at least
seven. That the first one be twenty is refused. -/
def splitOfTen : List (Operation Rat) :=
  [.addConstraint (.make 1 ⟨[⟨⟨1⟩, 1⟩, ⟨⟨2⟩, 1⟩], -10⟩ .equal .required),
    .addEditVariable ⟨1⟩ .strong 2,
    .suggestValue ⟨1⟩ 4,
    .addConstraint (.make 3 ⟨[⟨⟨2⟩, 1⟩], -7⟩ .greaterOrEqual .required),
    .addConstraint (.make 4 ⟨[⟨⟨1⟩, 1⟩], -20⟩ .equal .required)]

end Solver

end SoftSimplex
