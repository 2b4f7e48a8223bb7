import SoftSimplex.Proofs.Optimality
import SoftSimplex.Proofs.ShownSymbols

/-!
# What a removal keeps of the required constraints

At the solved values a required inequality always holds, and an equation that must hold does so
exactly if its dummy is at zero. A removal may put another column into the row of a dummy that stays
basic. From then on nothing holds this dummy at zero, and its equation is lost.
-/

namespace SoftSimplex
set_option autoImplicit false

instance (relation : Relation) (x : Rat) : Decidable (relation.Holds x) :=
  match relation with
  | .lessOrEqual => inferInstanceAs (Decidable (x ≤ 0))
  | .equal => inferInstanceAs (Decidable (x = 0))
  | .greaterOrEqual => inferInstanceAs (Decidable (0 ≤ x))

instance (t : Tableau Rat) : Decidable t.DummiesAtZero :=
  inferInstanceAs (Decidable (∀ e ∈ t.rows.entries, e.1.isDummy = true → e.2.constant = 0))

namespace Solver

instance (s : Solver Rat) (x : Variable → Rat) : Decidable (s.Feasible x) :=
  inferInstanceAs (Decidable (∀ c ∈ s.constraintList, c.isRequired = true →
    c.relation.Holds (s.residual x c)))

variable {issued : Set Symbol} {s : Solver Rat} {l live : LiveConstraint Rat} {id : Nat}

section Solved

variable (h : s.Sound issued)
include h

/-- Every basic column but those of variables belongs to a live constraint. -/
theorem Sound.owner_of_basic {y : Symbol} {row : Row Rat}
    (hRow : (y, row) ∈ s.tableau.rows.entries) (hKind : y.isExternal = false) :
    ∃ l ∈ s.constraints.values, y ∈ l.tag.symbols := by
  cases h.stands_of_shows (.basic row hRow) with
  | tracked v hOwn => cases hKind.symm.trans (h.ledger.named.external v y hOwn).2
  | column l hLive hOwn => exact ⟨l, hLive, hOwn⟩

theorem Sound.holds_solved_iff (hl : l ∈ s.constraints.values)
    (hRequired : l.constraint.isRequired = true) :
    l.constraint.relation.Holds (s.residual s.solvedValue l.constraint) ↔
      (l.tag.marker.isDummy = true → s.tableau.value l.tag.marker = 0) := by
  have hMarks := h.ledger.marks l hl
  have hEquation := h.solved_equations l hl
  rw [equation, ← solvedValue_eq] at hEquation
  rw [Tableau.value_eq_complete]
  constructor
  · intro hHolds hDummy
    obtain ⟨_, hRelation⟩ := hMarks.isDummy_marker_iff.mp hDummy
    have hZero : s.residual s.solvedValue l.constraint = 0 := by
      rw [hRelation] at hHolds
      exact hHolds
    rw [hZero, zero_add, hMarks.balance_of_required hRequired] at hEquation
    exact (mul_eq_zero.mp hEquation).resolve_left (Tag.markerSign_ne_zero _)
  · intro hDummy
    refine hMarks.holds hRequired hEquation (fun y hy => ?_) fun y hy hKind => ?_
    · exact h.rest.feasible.complete_nonneg h.rest.regular.solved h.ledger.numbered.distinct
        (h.ledger.columns l hl y hy) (hMarks.restricted hy)
    · obtain rfl := hMarks.symbols_of_required hRequired hy
      exact hDummy hKind

theorem Sound.feasible_solved_iff : s.Feasible s.solvedValue ↔ s.tableau.DummiesAtZero := by
  constructor
  · intro hFeasible e he hDummy
    obtain ⟨l, hl, hOwn⟩ := h.owner_of_basic he (Symbol.isExternal_of_isDummy hDummy)
    obtain ⟨hMarker, hRequired⟩ := (h.ledger.marks l hl).eq_marker_of_isDummy hOwn hDummy
    have hHolds := hFeasible _ (mem_constraintList.mpr ⟨l, hl, rfl⟩) hRequired
    have hZero := (h.holds_solved_iff hl hRequired).mp hHolds (hMarker ▸ hDummy)
    rwa [← hMarker, Tableau.value_eq_complete, Tableau.complete_of_mem he,
      ← Row.constant_eq_value] at hZero
  · intro hZero c hc hRequired
    obtain ⟨l, hl, rfl⟩ := mem_constraintList.mp hc
    refine (h.holds_solved_iff hl hRequired).mpr fun hDummy => ?_
    rw [Tableau.value_eq_complete]
    rcases h.rest.regular.solved.complete_cases h.ledger.numbered.distinct
      (h.ledger.marker_mem hl) 0 with ⟨row, hRow, hValue⟩ | hValue
    · rw [hValue, ← Row.constant_eq_value, hZero _ hRow hDummy]
    · exact hValue

theorem Sound.inequality_holds {c : Constraint Rat} (hc : c ∈ s.constraintList)
    (hRequired : c.isRequired = true) (hRelation : c.relation ≠ .equal) :
    c.relation.Holds (s.residual s.solvedValue c) := by
  obtain ⟨l, hl, rfl⟩ := mem_constraintList.mp hc
  refine (h.holds_solved_iff hl hRequired).mpr fun hDummy => ?_
  exact absurd ((h.ledger.marks l hl).isDummy_marker_iff.mp hDummy).2 hRelation

theorem Sound.dummiesAtZero_drop_iff (hGet : s.constraints.get? id = some live)
    {t : Tableau Rat} (hDrop : (s.tableau.forget live).dropMarker? live.tag.marker = some t)
    (hFeasible : s.Feasible s.solvedValue) :
    t.DummiesAtZero ↔ ¬ s.tableau.Displaces live.tag.marker := by
  have hForgot := h.forgot hGet
  have hZero : (s.tableau.forget live).DummiesAtZero := fun e he =>
    h.feasible_solved_iff.mp hFeasible e (hForgot.rows ▸ he)
  rw [hZero.dropMarker?_iff hForgot.regular.solved hDrop, Tableau.displaces_congr hForgot.rows]

end Solved

/-- After every run without a breakdown, a removal that succeeds keeps the required inequalities, and
all that is required exactly if it leaves every dummy at zero. Dropping the marker leaves them there
unless it displaces one; if it loosens none of the pinned dummies, nothing required is lost. -/
theorem removal_feasible_iff_of_run (limit : Nat) (ops : List (Operation Rat))
    (hOk : (withPivotLimit limit : Solver Rat).RunsThrough ops) (id : Nat)
    (live : LiveConstraint Rat) (hGet : (reached limit ops).constraints.get? id = some live)
    (hRemoved : ((reached limit ops).removeConstraint id).result = .ok ()) :
    let s := reached limit ops
    let after := (s.removeConstraint id).state
    (after.Feasible after.solvedValue ↔ after.tableau.DummiesAtZero) ∧
    (∀ c ∈ after.constraintList, c.isRequired = true → c.relation ≠ .equal →
      c.relation.Holds (after.residual after.solvedValue c)) ∧
    (s.Feasible s.solvedValue → ∃ t, (s.tableau.forget live).dropMarker? live.tag.marker = some t ∧
      (t.DummiesAtZero ↔ ¬ s.tableau.Displaces live.tag.marker)) ∧
    (s.tableau.Pinned → ¬ s.tableau.Loosens live.tag.marker →
      after.tableau.Pinned ∧ after.Feasible after.solvedValue) := by
  obtain ⟨issued, hSound⟩ := sound_reached hOk
  dsimp only
  cases hSound.removal_of_live hGet with
  | broken cause hResult =>
    rw [hResult] at hRemoved
    cases hRemoved
  | removed _ hAfter =>
    refine ⟨hAfter.sound.feasible_solved_iff, fun c hc => hAfter.sound.inequality_holds hc,
      fun hFeasible => ?_, fun hPinned hTight => ?_⟩
    · obtain ⟨t, hDrop⟩ := hAfter.dropped
      exact ⟨t, hDrop, hSound.dummiesAtZero_drop_iff hGet hDrop hFeasible⟩
    · have hPinned := hAfter.pinned hPinned hTight
      exact ⟨hPinned, hAfter.sound.feasible_solved hPinned⟩

/-- A number that must be five, twice over, and must be at least three. -/
def fiveTwice : List (Operation Rat) :=
  [.addConstraint (.make 1 ⟨[⟨⟨1⟩, 1⟩], -5⟩ .equal .required),
    .addConstraint (.make 2 ⟨[⟨⟨1⟩, 2⟩], -10⟩ .equal .required),
    .addConstraint (.make 3 ⟨[⟨⟨1⟩, 1⟩], -3⟩ .greaterOrEqual .required)]

/-- Without the second equation the first one still holds. -/
theorem removal_feasible_iff_of_fiveTwice :
    ((reached 10 fiveTwice).removeConstraint 2).state.Feasible
      ((reached 10 fiveTwice).removeConstraint 2).state.solvedValue := by
  have hLive : ((reached 10 fiveTwice).constraints.get? 2).isSome = true := by
    decide +kernel
  obtain ⟨live, hGet⟩ := Option.isSome_iff_exists.mp hLive
  exact (removal_feasible_iff_of_run 10 fiveTwice (by decide +kernel) 2 live hGet
    (by decide +kernel)).1.mpr (by decide +kernel)

/-- Without the first equation the second one is lost: the number becomes three. -/
theorem not_forall_removal_keeps_required : ¬ ∀ (limit : Nat) (ops : List (Operation Rat)) (id : Nat),
    (withPivotLimit limit : Solver Rat).RunsThrough ops →
    (reached limit ops).Feasible (reached limit ops).solvedValue →
    ((reached limit ops).removeConstraint id).result = .ok () →
    ((reached limit ops).removeConstraint id).state.Feasible
      ((reached limit ops).removeConstraint id).state.solvedValue := by
  intro hAll
  have hKept := hAll 10 fiveTwice 1 (by decide +kernel) (by decide +kernel) (by decide +kernel)
  revert hKept
  decide +kernel

end Solver

end SoftSimplex
