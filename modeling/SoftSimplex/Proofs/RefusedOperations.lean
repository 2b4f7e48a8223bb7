import SoftSimplex.Proofs.PublishedValues

/-!
# Refused operations

An operation that is refused leaves everything as it was, up to the symbol counter and the change log.
The additional entries of the log report nothing, because no solved value has moved.
-/

namespace SoftSimplex
set_option autoImplicit false

def SolverError.isRecoverable : SolverError → Bool
  | .breakdown _ => false
  | _ => true

namespace Solver

variable {α : Type} [Scalar α] {issued : Set Symbol} {s after : Solver α} {op : Operation α}

/-- The operation answers with a recoverable failure, or with a breakdown of the phase one that was to
insert its constraint. -/
inductive Refuses (s : Solver α) : Operation α → Prop where
  | addition {c : Constraint α} {e : SolverError} (answer : (s.addConstraint c).result = .error e)
      (recoverable : e.isRecoverable = true) : Refuses s (.addConstraint c)
  | phaseOne {c : Constraint α} (breaks : s.PhaseOneBreaks c) : Refuses s (.addConstraint c)
  | removal {id : Nat} {e : SolverError} (answer : (s.removeConstraint id).result = .error e)
      (recoverable : e.isRecoverable = true) : Refuses s (.removeConstraint id)
  | registration {v : Variable} {w : Strength α} {id : Nat} {e : SolverError}
      (answer : (s.addEditVariable v w id).result = .error e)
      (recoverable : e.isRecoverable = true) : Refuses s (.addEditVariable v w id)
  | retirement {v : Variable} {e : SolverError} (answer : (s.removeEditVariable v).result = .error e)
      (recoverable : e.isRecoverable = true) : Refuses s (.removeEditVariable v)
  | suggestion {v : Variable} {x : α} {e : SolverError}
      (answer : (s.suggestValue v x).result = .error e)
      (recoverable : e.isRecoverable = true) : Refuses s (.suggestValue v x)

section Answers

variable {e : SolverError}

theorem state_of_refused_removal {id : Nat} (hAnswer : (s.removeConstraint id).result = .error e)
    (hRecoverable : e.isRecoverable = true) :
    e = .unknownConstraint ∧ (s.removeConstraint id).state = s := by
  have hRemoves := s.removes id
  generalize s.removeConstraint id = a at hRemoves hAnswer ⊢
  cases hRemoves with
  | unknown =>
    cases hAnswer
    exact ⟨rfl, rfl⟩
  | stuck =>
    cases hAnswer
    cases hRecoverable
  | broken =>
    cases hAnswer
    cases hRecoverable
  | removed => cases hAnswer

theorem state_of_refused_registration {v : Variable} {w : Strength α} {id : Nat}
    (hAnswer : (s.addEditVariable v w id).result = .error e) (hRecoverable : e.isRecoverable = true) :
    (s.addEditVariable v w id).state = s := by
  have hRegisters := s.registers v w id
  generalize s.addEditVariable v w id = a at hRegisters hAnswer ⊢
  cases hRegisters with
  | refused => rfl
  | broken =>
    cases hAnswer
    cases hRecoverable
  | registered => cases hAnswer

theorem state_of_refused_retirement {v : Variable}
    (hAnswer : (s.removeEditVariable v).result = .error e) (hRecoverable : e.isRecoverable = true) :
    (s.removeEditVariable v).state = s := by
  have hRetires := s.retires v
  generalize s.removeEditVariable v = a at hRetires hAnswer ⊢
  cases hRetires with
  | unknown => rfl
  | forgotten => cases hAnswer
  | removed _ hRemoval hKnown =>
    -- A removal that fails otherwise than for want of the constraint has broken down.
    rw [← hRemoval] at hAnswer hKnown
    obtain ⟨rfl, _⟩ := state_of_refused_removal hAnswer hRecoverable
    exact absurd hAnswer hKnown

theorem state_of_refused_suggestion {v : Variable} {x : α}
    (hAnswer : (s.suggestValue v x).result = .error e) (hRecoverable : e.isRecoverable = true) :
    (s.suggestValue v x).state = s := by
  have hSuggests := s.suggests v x
  generalize s.suggestValue v x = a at hSuggests hAnswer ⊢
  cases hSuggests with
  | unknown => rfl
  | notFinite => rfl
  | same => cases hAnswer
  | moved => cases hAnswer
  | broken =>
    cases hAnswer
    cases hRecoverable

end Answers

theorem Coherent.restores_of_refused (h : s.Coherent issued) (hRefused : s.Refuses op) :
    Restores s (s.perform op).2 := by
  have hSame : ∀ {after : Solver α}, after = s → Restores s after := by
    rintro _ rfl
    exact .refl _
  cases hRefused with
  | @addition c e hAnswer hRecoverable =>
    have hInserts := h.inserts c
    have hResult : ((s.insertConstraint c).result.map fun _ => ()) = .error e := hAnswer
    cases hInserts with
    | refused hRestores => exact hRestores
    | accepted _ _ _ _ _ _ hEnd =>
      rcases hEnd with hOk | ⟨cause, hBroken⟩
      · rw [hOk] at hResult
        cases hResult
      · rw [hBroken] at hResult
        cases hResult
        cases hRecoverable
  | @phaseOne c hBreaks =>
    have hInserts := h.inserts c
    cases hInserts with
    | refused hRestores => exact hRestores
    | accepted _ _ _ _ _ hThrough => exact absurd hBreaks hThrough
  | removal hAnswer hRecoverable => exact hSame (state_of_refused_removal hAnswer hRecoverable).2
  | registration hAnswer hRecoverable => exact hSame (state_of_refused_registration hAnswer hRecoverable)
  | retirement hAnswer hRecoverable => exact hSame (state_of_refused_retirement hAnswer hRecoverable)
  | suggestion hAnswer hRecoverable => exact hSame (state_of_refused_suggestion hAnswer hRecoverable)

/-- The further entries of the log are variables whose published value is up to date. -/
theorem Restores.mem_changes_iff [NumericEquality α] (h : Restores s after) (hCurrent : s.Current)
    (hNumbers : s.HasNumbers) (c : Variable × α) :
    c ∈ after.fetchChanges.1 ↔ c ∈ s.fetchChanges.1 := by
  have hSolved : after.solvedValue c.1 = s.solvedValue c.1 := by rw [h.same]; rfl
  have hRead : after.getValue c.1 = s.getValue c.1 := by rw [h.same]; rfl
  rw [Solver.mem_changes_iff, Solver.mem_changes_iff, hSolved, hRead]
  constructor
  · rintro ⟨_, hValue, hChanged⟩
    exact ⟨hCurrent.mem_recording (hNumbers.solvedValue c.1) hChanged, hValue, hChanged⟩
  · rintro ⟨hMem, hRest⟩
    exact ⟨h.grows c.1 hMem, hRest⟩

/-- After every run, whatever was answered on the way: an operation that is refused changes the symbol
counter and the change log at most. In an arithmetic with an equality of numbers, and as long as the
rows have numbers for their constants, the next fetch reports what it would have reported before. -/
theorem solver_restored_of_refused (limit : Nat) (ops : List (Operation α)) (op : Operation α)
    (hRefused : (reached limit ops : Solver α).Refuses op) :
    let s : Solver α := reached limit ops
    let after := (s.perform op).2
    after = { s with lastSymbol := after.lastSymbol, changes := after.changes } ∧
    (NumericEquality α → s.HasNumbers →
      ∀ c, c ∈ after.fetchChanges.1 ↔ c ∈ s.fetchChanges.1) := by
  obtain ⟨issued, hCoherent⟩ := coherent_reached (α := α) limit ops
  have hRestores := hCoherent.restores_of_refused hRefused
  refine ⟨hRestores.same, fun _ hNumbers => ?_⟩
  exact hRestores.mem_changes_iff (current_reached limit ops) hNumbers

/-- Two numbers that add up to ten, where the second one is at least seven. -/
def highSecond : List (Operation Float) :=
  [.addConstraint (.make 1 ⟨[⟨⟨1⟩, 1⟩, ⟨⟨2⟩, 1⟩], -10⟩ .equal .required),
    .addConstraint (.make 2 ⟨[⟨⟨2⟩, 1⟩], -7⟩ .greaterOrEqual .required)]

/-- That the first number be at least four is refused by phase one. -/
theorem solver_restored_of_highSecond :
    let s := reached 10 highSecond
    let after := (s.perform
      (.addConstraint (.make 3 ⟨[⟨⟨1⟩, 1⟩], -4⟩ .greaterOrEqual .required))).2
    after = { s with lastSymbol := after.lastSymbol, changes := after.changes } ∧
      ∀ c, c ∈ after.fetchChanges.1 ↔ c ∈ s.fetchChanges.1 := by
  obtain ⟨hSame, hReports⟩ := solver_restored_of_refused 10 highSecond
    (.addConstraint (.make 3 ⟨[⟨⟨1⟩, 1⟩], -4⟩ .greaterOrEqual .required))
    (.addition (e := .unsatisfiableConstraint) (by decide +kernel) rfl)
  exact ⟨hSame, hReports inferInstance (by decide +kernel)⟩

end Solver

end SoftSimplex
