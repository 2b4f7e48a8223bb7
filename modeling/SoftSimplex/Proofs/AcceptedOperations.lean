import SoftSimplex.Proofs.BreakdownCauses
import SoftSimplex.Proofs.PublishedValues
import SoftSimplex.Proofs.Refusal

/-!
# What can be met is accepted

A new constraint that some assignment satisfies together with all that is required is not refused, so
adding it succeeds or runs out of pivots. So do a new edit variable with a new number and every suggestion
for an edit variable. What they do to the books is then known without a look at the tableau.
-/

namespace SoftSimplex.Solver
set_option autoImplicit false

variable {s after : Solver Rat} {c : Constraint Rat} {cs : List (Constraint Rat)} {v : Variable}
  {w : Strength Rat} {id : Nat} {x : Variable → Rat} {edit : Edit Rat}

/-- All that holds between two operations as long as nothing breaks down and no required equation is
removed. -/
structure InOrder (s : Solver Rat) : Prop where
  sound : ∃ issued, s.Sound issued
  pinned : s.tableau.Pinned
  coherent : ∃ issued, s.Coherent issued
  current : s.Current

theorem inOrder_withPivotLimit (limit : Nat) : (withPivotLimit limit : Solver Rat).InOrder where
  sound := ⟨∅, sound_withPivotLimit limit⟩
  pinned e he := by cases he
  coherent := ⟨∅, coherent_withPivotLimit limit⟩
  current := current_withPivotLimit limit

theorem InOrder.perform (h : s.InOrder) (op : Operation Rat)
    (hOk : (s.perform op).1.isBreakdown = false) (hKeeps : s.removesEquation op = false) :
    (s.perform op).2.InOrder := by
  obtain ⟨issued, hSound⟩ := h.sound
  obtain ⟨known, hCoherent⟩ := h.coherent
  have hKept := (hSound.perform op hOk).2 hKeeps
  exact ⟨hKept.sound, hKept.pinned h.pinned, (hCoherent.perform op).1, h.current.perform hCoherent op⟩

theorem InOrder.published_perform (h : s.InOrder) (op : Operation Rat)
    (hOp : op.republishes = false) : (s.perform op).2.published = s.published := by
  obtain ⟨known, hCoherent⟩ := h.coherent
  exact ((hCoherent.perform op).2 hOp).published

/-- An attempt has met the limit on the pivots. -/
def OutOfPivots (a : Attempt SolverError Unit (Solver Rat)) : Prop :=
  ∃ limit, a.result = .error (.breakdown (.iterationLimitExceeded limit))

theorem Ledger.hasConstraint_iff {issued : Set Symbol} (h : s.Ledger issued) :
    s.hasConstraint id = true ↔ id ∈ s.constraintList.map Constraint.id := by
  rw [hasConstraint, Registry.contains_eq_true_iff, Registry.keys, constraintList, Registry.values,
    List.map_map, List.map_map, List.map_congr_left fun e he => (h.keys e he).symm]
  rfl

section Additions

/-- Some constraints have been added, and nothing else that a caller can see has changed. -/
structure TakesIn (s : Solver Rat) (cs : List (Constraint Rat)) (after : Solver Rat) : Prop where
  inOrder : after.InOrder
  constraints : after.constraintList = s.constraintList ++ cs
  edits : after.edits = s.edits
  published : after.published = s.published

theorem InOrder.addConstraint (h : s.InOrder) (hNew : s.hasConstraint c.id = false)
    (hFeasible : s.Feasible x) (hHolds : c.isRequired = true → c.relation.Holds (c.expression.value x)) :
    OutOfPivots (s.addConstraint c) ∨ (s.addConstraint c).result = .ok () ∧
      s.TakesIn [c] (s.addConstraint c).state ∧ (s.addConstraint c).state.Feasible x := by
  obtain ⟨issued, hSound⟩ := h.sound
  have hGet := get?_of_not_hasConstraint hNew
  have hInsertion := hSound.insertion c
  have hResult : (s.addConstraint c).result = (s.insertConstraint c).result.map fun _ => () := rfl
  cases hInsertion with
  | duplicate hLive => cases hNew.symm.trans hLive
  | broken cause hBroken =>
    rw [hBroken] at hResult
    obtain rfl := hSound.addition_breakdown c hResult
    exact .inl ⟨_, hResult⟩
  | refused _ _ _ hRequired _ hImpossible =>
    exact absurd (hHolds hRequired) ((hImpossible h.pinned).not_holds hGet hSound hFeasible)
  | accepted _ _ tag hOk hAccepted =>
    rw [hOk] at hResult
    have hThrough : (s.perform (.addConstraint c)).1.isBreakdown = false := by
      show (answer (s.addConstraint c)).1.isBreakdown = false
      rw [answer, hResult]
      rfl
    refine .inr ⟨hResult, ⟨h.perform (.addConstraint c) hThrough rfl,
      constraintList_insert hGet hAccepted.constraints, hAccepted.edits,
      h.published_perform (.addConstraint c) rfl⟩, ?_⟩
    exact (hSound.ledger.feasible_insert_iff hGet hAccepted.constraints hAccepted.edits).mpr
      ⟨hFeasible, hHolds⟩

theorem InOrder.addConstraints (h : s.InOrder)
    (hNew : ((s.constraintList ++ cs).map Constraint.id).Nodup) (hFeasible : s.Feasible x)
    (hHolds : ∀ c ∈ cs, c.isRequired = true → c.relation.Holds (c.expression.value x)) :
    OutOfPivots (s.addConstraints cs) ∨ (s.addConstraints cs).result = .ok () ∧
      s.TakesIn cs (s.addConstraints cs).state ∧ (s.addConstraints cs).state.Feasible x := by
  -- the one assignment stays feasible and so vouches for each next constraint
  induction cs generalizing s with
  | nil => exact .inr ⟨rfl, ⟨h, (List.append_nil _).symm, rfl, rfl⟩, hFeasible⟩
  | cons c rest ih =>
    obtain ⟨hFirst, hRest⟩ := List.forall_mem_cons.mp hHolds
    obtain ⟨issued, hSound⟩ := h.sound
    have hFresh : s.hasConstraint c.id = false := by
      rw [← Bool.not_eq_true, hSound.ledger.hasConstraint_iff]
      rw [List.map_append, List.nodup_append] at hNew
      exact fun hLive => hNew.2.2 _ hLive _ (List.mem_map_of_mem List.mem_cons_self) rfl
    have hAdd := h.addConstraint hFresh hFeasible hFirst
    rw [Solver.addConstraints]
    generalize s.addConstraint c = a at hAdd
    obtain ⟨result, next⟩ := a
    rcases hAdd with ⟨limit, hLimit⟩ | ⟨hOk, hTakes, hNext⟩
    · obtain rfl : result = _ := hLimit
      exact .inl ⟨limit, rfl⟩
    · obtain rfl : result = _ := hOk
      have hList : next.constraintList ++ rest = s.constraintList ++ c :: rest := by
        rw [hTakes.constraints, List.append_assoc, List.singleton_append]
      refine (ih hTakes.inOrder (hList ▸ hNew) hNext hRest).imp_right ?_
      rintro ⟨hDone, hMore, hLast⟩
      exact ⟨hDone, ⟨hMore.inOrder, hMore.constraints.trans hList, hMore.edits.trans hTakes.edits,
        hMore.published.trans hTakes.published⟩, hLast⟩

end Additions

section Editing

/-- The constraint of a new edit variable. -/
def editConstraint (v : Variable) (w : Strength Rat) (id : Nat) : Constraint Rat :=
  .make id (.ofVariable v) .equal w

theorem InOrder.addEditVariable (h : s.InOrder) (hNew : s.hasConstraint id = false)
    (hFree : s.editRefusal? v w = none) :
    OutOfPivots (s.addEditVariable v w id) ∨ (s.addEditVariable v w id).result = .ok () ∧
      (s.addEditVariable v w id).state.InOrder ∧
      (s.addEditVariable v w id).state.constraintList =
        s.constraintList ++ [editConstraint v w id] ∧
      (∃ tag, (s.addEditVariable v w id).state.edits =
        s.edits.insert v ⟨tag, editConstraint v w id, 0⟩) ∧
      (s.addEditVariable v w id).state.published = s.published := by
  obtain ⟨issued, hSound⟩ := h.sound
  have hPerform := h.perform (.addEditVariable v w id)
  have hPublished := h.published_perform (.addEditVariable v w id) rfl
  have hLimit : ∀ cause, (s.addEditVariable v w id).result = .error (.breakdown cause) →
      cause = .iterationLimitExceeded s.pivotLimit := fun _ => hSound.registration_breakdown hNew
  rw [Solver.perform, answer] at hPerform hPublished
  have hRegisters := s.registers v w id
  generalize s.addEditVariable v w id = a at hRegisters hPerform hPublished hLimit
  cases hRegisters with
  | refused hRefusal => cases hFree.symm.trans hRefusal
  | broken _ _ =>
    obtain rfl := hLimit _ rfl
    exact .inl ⟨_, rfl⟩
  | @registered tag next _ hInsert =>
    have hInsertion := hSound.insertion (editConstraint v w id)
    rw [editConstraint, hInsert] at hInsertion
    cases hInsertion with
    | accepted _ _ _ hTag hAccepted =>
      obtain rfl := Except.ok.inj hTag
      have hList := constraintList_insert (get?_of_not_hasConstraint hNew) hAccepted.constraints
      refine .inr ⟨rfl, hPerform rfl rfl, hList, ⟨tag, ?_⟩, hPublished⟩
      show next.edits.insert v _ = _
      rw [hAccepted.edits]
      rfl
    | duplicate _ hResult => cases hResult
    | broken _ hResult => cases hResult
    | refused _ _ hResult => cases hResult

theorem InOrder.suggestValue (h : s.InOrder) (hEdit : s.edits.get? v = some edit) (x : Rat) :
    OutOfPivots (s.suggestValue v x) ∨ (s.suggestValue v x).result = .ok () ∧
      (s.suggestValue v x).state.InOrder ∧
      (s.suggestValue v x).state.constraintList = s.constraintList ∧
      (s.suggestValue v x).state.edits = s.edits.insert v { edit with value := x } ∧
      (s.suggestValue v x).state.published = s.published := by
  obtain ⟨issued, hSound⟩ := h.sound
  have hPerform := h.perform (.suggestValue v x)
  have hPublished := h.published_perform (.suggestValue v x) rfl
  have hLimit : ∀ cause, (s.suggestValue v x).result = .error (.breakdown cause) →
      cause = .iterationLimitExceeded s.pivotLimit := fun _ => hSound.suggestion_breakdown h.pinned
  rw [Solver.perform, answer] at hPerform hPublished
  have hSuggests := s.suggests v x
  generalize s.suggestValue v x = a at hSuggests hPerform hPublished hLimit
  cases hSuggests with
  | unknown hMissing => cases hEdit.symm.trans hMissing
  | notFinite _ hInfinite => cases hInfinite
  | broken _ _ =>
    obtain rfl := hLimit _ rfl
    exact .inl ⟨_, rfl⟩
  | same hFound _ =>
    obtain rfl := Option.some.inj (hEdit.symm.trans hFound)
    exact .inr ⟨rfl, hPerform rfl rfl, rfl, rfl, hPublished⟩
  | moved hFound _ =>
    obtain rfl := Option.some.inj (hEdit.symm.trans hFound)
    exact .inr ⟨rfl, hPerform rfl rfl, rfl, rfl, hPublished⟩

end Editing

end SoftSimplex.Solver
