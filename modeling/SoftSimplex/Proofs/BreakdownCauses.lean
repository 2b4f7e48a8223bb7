import SoftSimplex.Proofs.InsertedRow
import SoftSimplex.Proofs.Optimality
import SoftSimplex.Proofs.PassBreakdowns

/-!
# Only the limit on the pivots breaks a run

The weighed errors are at least zero, so no pass finds the objective unbounded. A suggestion moves a
constraint that need not hold, so what is required stays possible and every row can be repaired. The
marker of a live constraint is tied by its equation, so some row mentions it. What is left is the limit
on the pivots.
-/

namespace SoftSimplex.Solver
set_option autoImplicit false

open Tableau (Bounded Consistent Restrained)

/-- The constraint of a new edit variable gets a number that no live constraint has. -/
def NumbersAnew {α : Type} [Scalar α] (s : Solver α) : Operation α → Prop
  | .addEditVariable _ _ id => s.hasConstraint id = false
  | _ => True

variable {issued more : Set Symbol} {s : Solver Rat} {t : Tableau Rat} {live : LiveConstraint Rat}
  {id : Nat} {v : Variable} {edit : Edit Rat} {cause : Breakdown} {a : Nat → Rat}

section Bounds

theorem errorCost_nonneg (hErrors : ∀ l ∈ s.constraints.values, ∀ x ∈ l.tag.errors, 0 ≤ a x.id) :
    0 ≤ s.errorCost a := by
  rw [errorCost]
  apply List.sum_nonneg
  intro q hq
  obtain ⟨l, hl, rfl⟩ := List.mem_map.mp hq
  apply mul_nonneg l.constraint.strength_nonneg
  apply List.sum_nonneg
  intro q hq
  obtain ⟨x, hx, rfl⟩ := List.mem_map.mp hq
  exact hErrors l hl x hx

theorem Ledger.error_columns (h : s.Ledger issued) :
    ∀ l ∈ s.constraints.values, ∀ x ∈ l.tag.errors, x ∈ issued ∧ x.isExternal = false := by
  intro l hl x hx
  have hOwn := Tag.mem_symbols_of_mem_errors hx
  exact ⟨h.columns l hl x hOwn, (h.marks l hl).restricted hOwn⟩

/-- The objective of a tableau that represents live constraints stays above its constant part. -/
theorem Represents.bounded (h : s.Represents t)
    (hErrors : ∀ l ∈ s.constraints.values, ∀ x ∈ l.tag.errors, x ∈ issued ∧ x.isExternal = false) :
    t.Bounded issued .primary := by
  obtain ⟨k, hk⟩ := h.objective
  refine ⟨k, fun r hr a hSat ha => ?_⟩
  obtain rfl := Option.some.inj hr
  have hCost : 0 ≤ s.errorCost a := errorCost_nonneg fun l hl x hx =>
    ha x (hErrors l hl x hx).1 (hErrors l hl x hx).2
  rw [hk a hSat]
  linarith

end Bounds

section Insertion

theorem Sound.insertion_breakdown (h : s.Sound issued) (c : Constraint Rat)
    (hBroken : (s.insertConstraint c).result = .error (.breakdown cause)) :
    cause = .iterationLimitExceeded s.pivotLimit := by
  have hAdds := s.adds c
  obtain ⟨more, hMore, hCode⟩ := h.encoded c
  generalize s.insertConstraint c = attempt at hAdds hBroken
  cases hAdds with
  | duplicate => cases hBroken
  | unsatisfiable => cases hBroken
  | settled => cases hBroken
  | stuck _ hPlacement hPass =>
    cases hBroken
    obtain ⟨_, hKinds, _⟩ := hCode.of_phaseOne hPlacement
    exact hCode.regular.insertArtificially_breakdown hCode.numbered.distinct
      (hCode.feasible_next h.rest) hCode.addable_next hKinds hCode.nonneg (fresh_slack hCode) hPass
  | broken hNew hPlace hPass =>
    cases hBroken
    obtain ⟨most, hReady⟩ := hPlace.ready hCode h
    have hGet := get?_of_not_hasConstraint hNew
    have hPlaced := hReady.placed
    have hSays := represents_register hCode h hGet hPlaced.absorbs
    have hErrors := (ledger_register hCode h hMore hGet).error_columns
    have hBounded := hSays.bounded fun l hl x hx =>
      ⟨hReady.wider (hErrors l hl x hx).1, (hErrors l hl x hx).2⟩
    exact hBounded.settle_breakdown hReady.numbered.distinct hPlaced.regular hPlaced.orderly
      hPlaced.feasible hPass

theorem Sound.addition_breakdown (h : s.Sound issued) (c : Constraint Rat)
    (hBroken : (s.addConstraint c).result = .error (.breakdown cause)) :
    cause = .iterationLimitExceeded s.pivotLimit := by
  apply h.insertion_breakdown c
  rw [addConstraint] at hBroken
  cases hResult : (s.insertConstraint c).result with
  | ok tag =>
    rw [hResult] at hBroken
    cases hBroken
  | error e =>
    rw [hResult] at hBroken
    cases hBroken
    rfl

theorem pivotLimit_addConstraint {c : Constraint Rat} {next : Solver Rat}
    (hAdd : s.addConstraint c = ⟨.ok (), next⟩) : next.pivotLimit = s.pivotLimit := by
  have hAdds := s.adds c
  rw [addConstraint] at hAdd
  generalize s.insertConstraint c = attempt at hAdds hAdd
  cases hAdds with
  | settled _ hPlace _ =>
    cases hAdd
    cases hPlace <;> rfl
  | _ => cases hAdd

theorem Sound.additions_breakdown (h : s.Sound issued) (cs : List (Constraint Rat))
    (hBroken : (s.addConstraints cs).result = .error (.breakdown cause)) :
    cause = .iterationLimitExceeded s.pivotLimit := by
  induction cs generalizing s issued with
  | nil => cases hBroken
  | cons c rest ih =>
    have hFirst := h.keeps_addConstraint c
    rw [addConstraints] at hBroken
    split at hBroken
    · rename_i next hAdd
      rw [hAdd] at hFirst
      obtain ⟨⟨more, hNext⟩, _⟩ := hFirst rfl
      rw [← pivotLimit_addConstraint hAdd]
      exact ih hNext hBroken
    · exact h.addition_breakdown c hBroken

end Insertion

section Removal

variable (h : s.Sound issued)
include h

/-- The equation of a live constraint ties its marker. -/
theorem Sound.marker_tied (hGet : s.constraints.get? id = some live) :
    ¬ ∀ a x, (s.tableau.forget live).Satisfies a →
      (s.tableau.forget live).Satisfies (Function.update a live.tag.marker.id x) := by
  intro hFree
  have hMember := mem_values_of_get? hGet
  have hMarks := h.ledger.marks live hMember
  have hSat := (h.satisfies_forget hGet).mpr h.solved_equations
  obtain ⟨x, hx⟩ := hMarks.exists_marker
    (s.residual (s.tracked.valuation (s.tableau.complete 0)) live.constraint + 1)
    (s.tableau.complete 0)
  have hZero := (h.satisfies_forget hGet).mp (hFree _ x hSat) live hMember
  rw [equation, h.ledger.valuation_update (h.ledger.marker_mem hMember)
    (hMarks.restricted live.tag.marker_mem_symbols)] at hZero
  linarith

theorem Sound.removal_breakdown (edits : Registry Variable (Edit Rat))
    (hBroken : (({ s with edits } : Solver Rat).removeConstraint id).result =
      .error (.breakdown cause)) : cause = .iterationLimitExceeded s.pivotLimit := by
  have hRemoves := ({ s with edits } : Solver Rat).removes id
  generalize ({ s with edits } : Solver Rat).removeConstraint id = attempt at hRemoves hBroken
  cases hRemoves with
  | unknown => cases hBroken
  | removed => cases hBroken
  | stuck hFound hDrop =>
    obtain ⟨u, hSome⟩ := (h.forgot hFound).regular.exists_dropMarker? (h.marker_tied hFound)
    cases hSome.symm.trans hDrop
  | broken hFound hDrop hPass =>
    cases hBroken
    have hDropped := h.dropped hFound hDrop
    have hBounded := (h.represents_dropped hFound hDrop).bounded fun l hl =>
      h.ledger.error_columns l (mem_values_of_without hFound hl)
    exact hBounded.settle_breakdown h.ledger.numbered.distinct hDropped.regular hDropped.orderly
      hDropped.feasible hPass

end Removal

section Editing

theorem editRefusal?_ne_breakdown {w : Strength Rat} :
    s.editRefusal? v w ≠ some (.breakdown cause) := by
  intro hRefusal
  rw [editRefusal?] at hRefusal
  split at hRefusal
  · cases hRefusal
  · split at hRefusal <;> cases hRefusal

/-- A new constraint that need not hold is neither a duplicate nor unsatisfiable. -/
theorem Sound.breakdown_of_optional (h : s.Sound issued) {c : Constraint Rat} {e : SolverError}
    {next : Solver Rat} (hNew : s.hasConstraint c.id = false) (hOptional : c.isRequired = false)
    (hInsert : s.insertConstraint c = ⟨.error e, next⟩) :
    e = .breakdown (.iterationLimitExceeded s.pivotLimit) := by
  have hInsertion := h.insertion c
  rw [hInsert] at hInsertion
  cases hInsertion with
  | duplicate hLive => cases hNew.symm.trans hLive
  | broken first hResult =>
    obtain rfl := Except.error.inj hResult
    rw [h.insertion_breakdown c (congrArg Attempt.result hInsert)]
  | refused _ _ _ hRequired => cases hOptional.symm.trans hRequired
  | accepted _ _ _ hResult => cases hResult

theorem Sound.registration_breakdown (h : s.Sound issued) {w : Strength Rat}
    (hNew : s.hasConstraint id = false)
    (hBroken : (s.addEditVariable v w id).result = .error (.breakdown cause)) :
    cause = .iterationLimitExceeded s.pivotLimit := by
  rw [addEditVariable] at hBroken
  cases hRefusal : s.editRefusal? v w with
  | some e =>
    rw [hRefusal] at hBroken
    obtain rfl := Except.error.inj hBroken
    exact absurd hRefusal editRefusal?_ne_breakdown
  | none =>
    have hOptional : (Constraint.make id (.ofVariable v) .equal w).isRequired = false :=
      Strength.isRequired_clip (editRefusal?_eq_none hRefusal).2
    rw [hRefusal] at hBroken
    dsimp only at hBroken
    cases hInsert : s.insertConstraint (.make id (.ofVariable v) .equal w) with
    | mk result next =>
      rw [hInsert] at hBroken
      cases result with
      | ok tag => cases hBroken
      | error e =>
        obtain rfl := h.breakdown_of_optional hNew hOptional hInsert
        cases hBroken
        rfl

theorem Sound.retirement_breakdown (h : s.Sound issued)
    (hBroken : (s.removeEditVariable v).result = .error (.breakdown cause)) :
    cause = .iterationLimitExceeded s.pivotLimit := by
  have hRetires := s.retires v
  generalize s.removeEditVariable v = attempt at hRetires hBroken
  cases hRetires with
  | unknown => cases hBroken
  | forgotten => cases hBroken
  | removed _ hRemoval _ =>
    exact h.removal_breakdown _ (hRemoval ▸ hBroken)

theorem Ledger.feasible_suggested (h : s.Ledger issued) (hEdit : s.edits.get? v = some edit)
    {x : Rat} {y : Variable → Rat} (hFeasible : s.Feasible y) :
    (s.withSuggestion v edit x).Feasible y := by
  intro c hc hRequired
  obtain ⟨l, hl, rfl⟩ := mem_constraintList.mp hc
  have hLive := h.liveEdit hEdit
  have hne : l.constraint.id ≠ edit.constraint.id := by
    intro hId
    obtain rfl := Option.some.inj ((h.get?_of_mem hl).symm.trans (hId ▸ hLive.live))
    cases hLive.optional.symm.trans hRequired
  rw [residual, h.target_other hEdit hne]
  exact hFeasible l.constraint hc hRequired

/-- Whatever is suggested, some solution of the shifted tableau is admissible. -/
theorem Sound.consistent_shifted (h : s.Sound issued) (hPinned : s.tableau.Pinned)
    (hEdit : s.edits.get? v = some edit) (x : Rat) :
    (s.tableau.shiftEdit edit.tag (x - edit.value)).Consistent issued := by
  obtain ⟨_, _, _, hSays⟩ := h.shifted hEdit x
  have hLedger := h.ledger.withSuggestion hEdit (x := x)
  obtain ⟨a, ha⟩ := hLedger.exists_completes
    (h.ledger.feasible_suggested hEdit (h.feasible_solved hPinned))
  exact ⟨a, (hSays.rows a).mpr fun l hl => hLedger.equation_completes ha hl,
    hLedger.admissible_completes ha⟩

theorem Sound.suggestion_breakdown (h : s.Sound issued) (hPinned : s.tableau.Pinned) {x : Rat}
    (hBroken : (s.suggestValue v x).result = .error (.breakdown cause)) :
    cause = .iterationLimitExceeded s.pivotLimit := by
  have hSuggests := s.suggests v x
  generalize s.suggestValue v x = attempt at hSuggests hBroken
  cases hSuggests with
  | broken hEdit hPass =>
    cases hBroken
    obtain ⟨_, _, hMoved, _⟩ := h.shifted hEdit x
    exact (h.consistent_shifted hPinned hEdit x).dualOptimizeWithin_breakdown
      h.ledger.numbered.distinct (hMoved.cells.regular h.rest.regular) hMoved.orderly
      (congrArg Attempt.result hPass)
  | _ => cases hBroken

end Editing

theorem Sound.perform_breakdown (h : s.Sound issued) (hPinned : s.tableau.Pinned)
    (op : Operation Rat) (hNew : s.NumbersAnew op)
    (hBroken : (s.perform op).1.result = .error (.breakdown cause)) :
    cause = .iterationLimitExceeded s.pivotLimit := by
  cases op with
  | addConstraint c => exact h.addition_breakdown c hBroken
  | addConstraints cs => exact h.additions_breakdown cs hBroken
  | removeConstraint id => exact h.removal_breakdown s.edits hBroken
  | addEditVariable v w id => exact h.registration_breakdown hNew hBroken
  | removeEditVariable v => exact h.retirement_breakdown hBroken
  | suggestValue v x => exact h.suggestion_breakdown hPinned hBroken
  | fetchChanges => cases hBroken
  | nameVariable v name => cases hBroken
  | reset => cases hBroken

/-- The first breakdown of a run that removes no equation that must hold is a pass that has taken all
its pivots. -/
theorem first_breakdown_is_pivot_limit_of_run (limit : Nat) (ops : List (Operation Rat))
    (hOk : (withPivotLimit limit : Solver Rat).RunsThrough ops)
    (hKeeps : (withPivotLimit limit : Solver Rat).KeepsEquations ops) (op : Operation Rat)
    (hNew : (reached limit ops).NumbersAnew op) (cause : Breakdown)
    (hBroken : ((reached limit ops).perform op).1.result = .error (.breakdown cause)) :
    cause = .iterationLimitExceeded (reached limit ops).pivotLimit := by
  obtain ⟨issued, hSound⟩ := sound_reached hOk
  exact hSound.perform_breakdown (pinned_reached hOk hKeeps) op hNew hBroken

/-- Where no pivot may be taken, the second of the two numbers cannot be raised to seven. -/
theorem first_breakdown_is_pivot_limit_of_splitOfTen :
    ∃ op cause, splitOfTen[3]? = some op ∧
      ((reached 0 (splitOfTen.take 3)).perform op).1.result = .error (.breakdown cause) ∧
        cause = .iterationLimitExceeded (reached 0 (splitOfTen.take 3)).pivotLimit := by
  have hBroken : ((reached 0 (splitOfTen.take 3)).perform splitOfTen[3]).1.result =
      .error (.breakdown (.iterationLimitExceeded 0)) := by
    decide +kernel
  refine ⟨splitOfTen[3], _, rfl, hBroken, ?_⟩
  exact first_breakdown_is_pivot_limit_of_run 0 (splitOfTen.take 3) (by decide +kernel)
    (by decide +kernel) splitOfTen[3] trivial _ hBroken

end SoftSimplex.Solver
