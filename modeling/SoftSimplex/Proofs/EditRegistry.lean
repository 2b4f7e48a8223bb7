import SoftSimplex.Proofs.BookSteps
import SoftSimplex.Proofs.RegisteredEdits

/-!
# Edit variables and live constraints

The live constraints and the edit variables of a solver are the additions that stand in the journal of
its run. Each edit variable has a live constraint of its own with the same columns, and whichever of the
two is removed takes the other with it. All of this holds in any arithmetic.
-/

namespace SoftSimplex
set_option autoImplicit false

/-- What a strength below the required one needs of an arithmetic to stay below it when it is clipped. -/
class StrengthOrder (α : Type) [Scalar α] : Prop where
  not_required_le_zero : ¬ (Strength.required : Strength α).value ≤ 0
  required_le_of_lt {x : α} (h : (Strength.required : Strength α).value < x) :
    (Strength.required : Strength α).value ≤ x

instance : StrengthOrder Rat where
  not_required_le_zero := by decide +kernel
  required_le_of_lt := le_of_lt

instance : StrengthOrder Float where
  not_required_le_zero := by decide +kernel
  required_le_of_lt {x} h := by
    have hLess : (Strength.required : Strength Float).value.toModel.unpack.lt x.toModel.unpack = true :=
      of_decide_eq_true h
    have hAtMost : (Strength.required : Strength Float).value.toModel.unpack.le x.toModel.unpack =
        true := by
      rw [Float.Model.UnpackedFloat.lt, beq_iff_eq] at hLess
      rw [Float.Model.UnpackedFloat.le, hLess]
      rfl
    exact decide_eq_true hAtMost

theorem Strength.not_required_clip {α : Type} [Scalar α] [StrengthOrder α] {w : Strength α}
    (h : w.isRequired = false) : w.clip.isRequired = false := by
  rw [isRequired, decide_eq_false_iff_not] at h ⊢
  rw [clip, Scalar.clamp]
  dsimp only
  split
  · exact StrengthOrder.not_required_le_zero
  · split
    · rename_i hAbove
      exact absurd (StrengthOrder.required_le_of_lt hAbove) h
    · exact h

namespace Solver

variable {α : Type} [Scalar α] {issued : Set Symbol} {s next : Solver α} {c : Constraint α} {tag : Tag}
  {v : Variable} {w : Strength α} {id : Nat} {edit : Edit α} {op : Operation α}
  {done : List (Operation α)} {x : α}

section Operations

theorem insertConstraint_done (h : s.insertConstraint c = ⟨.ok tag, next⟩) :
    s.constraints.get? c.id = none ∧ next.constraints = s.constraints.insert c.id ⟨c, tag⟩ ∧
      next.edits = s.edits := by
  have hAdds := s.adds c
  rw [h] at hAdds
  cases hAdds with
  | settled hNew hPlace => exact ⟨get?_of_not_hasConstraint hNew, rfl, by cases hPlace <;> rfl⟩

theorem editRefusal?_of_registered (h : (s.addEditVariable v w id).result = .ok ()) :
    s.editRefusal? v w = none := by
  rw [addEditVariable] at h
  cases hRefusal : s.editRefusal? v w with
  | none => rfl
  | some e =>
    rw [hRefusal] at h
    cases h

/-- A removal that succeeds takes the edit variable of the constraint with it. -/
theorem removeConstraint_done (h : (s.removeConstraint id).result = .ok ()) :
    (s.removeConstraint id).state.constraints = s.constraints.erase id ∧
      (s.removeConstraint id).state.edits = s.edits.filter fun _ e => !(e.constraint.id == id) := by
  have hRemoves := s.removes id
  generalize s.removeConstraint id = a at hRemoves h ⊢
  cases hRemoves with
  | unknown => cases h
  | stuck => cases h
  | broken => cases h
  | @removed live t u =>
    obtain ⟨dropped, hRelease, _⟩ := release_eq_markAll
      (({ s with constraints := s.constraints.erase id } : Solver α).absorb u) live.constraint
    rw [hRelease]
    exact ⟨rfl, rfl⟩

theorem recoverable_of_error {e : SolverError} (hThrough : (s.perform op).1.isBreakdown = false)
    (hError : (s.perform op).1.result = .error e) : e.isRecoverable = true := by
  rw [Reply.isBreakdown, hError] at hThrough
  cases e with
  | breakdown => cases hThrough
  | _ => rfl

/-- What is live can be removed, short of a breakdown. -/
theorem removeConstraint_of_live {live : LiveConstraint α} (hLive : s.constraints.get? id = some live)
    (hThrough : ∀ cause, (s.removeConstraint id).result ≠ .error (.breakdown cause)) :
    (s.removeConstraint id).result = .ok () := by
  have hRemoves := s.removes id
  generalize s.removeConstraint id = a at hRemoves hThrough ⊢
  cases hRemoves with
  | unknown hMissing => cases hMissing.symm.trans hLive
  | stuck => exact absurd rfl (hThrough _)
  | broken => exact absurd rfl (hThrough _)
  | removed => rfl

/-- The edit variable goes first and its constraint after it. -/
theorem removeEditVariable_of_live (hFound : s.edits.get? v = some edit)
    {live : LiveConstraint α} (hLive : s.constraints.get? edit.constraint.id = some live) :
    s.removeEditVariable v =
      ({ s with edits := s.edits.erase v } : Solver α).removeConstraint edit.constraint.id := by
  rw [removeEditVariable, hFound]
  dsimp only
  split
  · rename_i hUnknown
    have hRemoved := removeConstraint_of_live (s := { s with edits := s.edits.erase v }) hLive
    rw [hUnknown] at hRemoved
    cases hRemoved fun cause hCause => by cases hCause
  · rfl

end Operations

section Runs

theorem successes_of_ok (hOp : ∀ cs, op ≠ .addConstraints cs)
    (hOk : (s.perform op).1.result = .ok ()) : s.successes op = [op] := by
  rw [successes, hOk]
  exact hOp

theorem successes_of_error {e : SolverError} (hOp : ∀ cs, op ≠ .addConstraints cs)
    (hError : (s.perform op).1.result = .error e) : s.successes op = [] := by
  rw [successes, hError]
  exact hOp

theorem refuses_of_error {e : SolverError} (hOp : ∀ cs, op ≠ .addConstraints cs)
    (hThrough : (s.perform op).1.isBreakdown = false)
    (hError : (s.perform op).1.result = .error e) : s.Refuses op := by
  have hRecoverable := recoverable_of_error hThrough hError
  cases op with
  | addConstraint => exact .addition hError hRecoverable
  | addConstraints cs => exact absurd rfl (hOp cs)
  | removeConstraint => exact .removal hError hRecoverable
  | addEditVariable => exact .registration hError hRecoverable
  | removeEditVariable => exact .retirement hError hRecoverable
  | suggestValue => exact .suggestion hError hRecoverable
  | fetchChanges => cases hError
  | nameVariable => cases hError
  | reset => cases hError

namespace Registered

variable (h : s.Registered done)
include h

theorem reset : s.reset.Registered (done ++ [.reset]) where
  constraints := by
    rw [Operation.additions, Operation.standing_concat_reset]
    rfl
  edits := by
    rw [Operation.registrations, Operation.standing_concat_reset]
    rfl
  keys e he := by cases he
  live e he := by cases he
  optional := h.optional_concat fun _ _ _ hOp => by cases hOp
  values e he := by cases he

theorem addConstraint (hOk : (s.addConstraint c).result = .ok ()) :
    (s.addConstraint c).state.Registered (done ++ [.addConstraint c]) := by
  obtain ⟨tag, hInsertion⟩ := insertConstraint_of_added hOk
  obtain ⟨hNew, hConstraints, hEdits⟩ := insertConstraint_done hInsertion
  exact h.add hNew hConstraints hEdits

theorem addEditVariable (hOk : (s.addEditVariable v w id).result = .ok ()) :
    (s.addEditVariable v w id).state.Registered (done ++ [.addEditVariable v w id]) := by
  obtain ⟨hFree, hOptional⟩ := editRefusal?_eq_none (Solver.editRefusal?_of_registered hOk)
  have hRegisters := s.registers v w id
  generalize s.addEditVariable v w id = a at hRegisters hOk ⊢
  cases hRegisters with
  | refused => cases hOk
  | broken => cases hOk
  | registered _ hInsertion =>
    obtain ⟨hNew, hConstraints, hEdits⟩ := insertConstraint_done hInsertion
    exact h.register hNew hConstraints rfl hFree hOptional
      (congrArg (Registry.insert · v _) hEdits)

theorem removeEditVariable (hOk : (s.removeEditVariable v).result = .ok ()) :
    (s.removeEditVariable v).state.Registered (done ++ [.removeEditVariable v]) := by
  cases hFound : s.edits.get? v with
  | none =>
    rw [Solver.removeEditVariable, hFound] at hOk
    cases hOk
  | some edit =>
    have hLive := h.live _ (Registry.get?_eq_some_iff.mp hFound)
    rw [removeEditVariable_of_live hFound hLive] at hOk ⊢
    obtain ⟨hConstraints, hEdits⟩ := removeConstraint_done hOk
    exact h.retire hFound hConstraints hEdits

theorem suggestValue (hOk : (s.suggestValue v x).result = .ok ()) :
    (s.suggestValue v x).state.Registered (done ++ [.suggestValue v x]) := by
  have hSuggests := s.suggests v x
  generalize s.suggestValue v x = a at hSuggests hOk ⊢
  cases hSuggests with
  | unknown => cases hOk
  | notFinite => cases hOk
  | same hFound => exact h.suggest hFound rfl rfl
  | moved hFound => exact h.suggest hFound rfl rfl
  | broken => cases hOk

theorem addConstraints (hCoherent : s.Coherent issued) (cs : List (Constraint α))
    (hThrough : (answer (s.addConstraints cs)).1.isBreakdown = false) :
    (s.addConstraints cs).state.Registered (done ++ (s.takenIn cs).map .addConstraint) := by
  induction cs generalizing s issued done with
  | nil => exact (List.append_nil done).symm ▸ h
  | cons c rest ih =>
    rw [Solver.addConstraints] at hThrough ⊢
    rw [takenIn]
    cases hAdd : s.addConstraint c with
    | mk result next =>
      rw [hAdd] at hThrough
      cases result with
      | ok _ =>
        have hNext := h.addConstraint (c := c) (by rw [hAdd])
        obtain ⟨later, hLater⟩ := (hCoherent.addConstraint c).coherent
        rw [hAdd] at hNext hLater
        have hRest := ih hNext hLater hThrough
        rw [List.append_assoc] at hRest
        exact hRest
      | error e =>
        have hReply : (s.perform (.addConstraint c)).1.result = .error e :=
          congrArg Attempt.result hAdd
        have hReplied : (s.perform (.addConstraint c)).1.isBreakdown = false := by
          rw [Reply.isBreakdown, hReply]
          exact hThrough
        have hRestores := hCoherent.restores_of_refused
          (refuses_of_error (fun cs hEq => by cases hEq) hReplied hReply)
        rw [show (s.perform (.addConstraint c)).2 = next from congrArg Attempt.state hAdd] at hRestores
        exact (List.append_nil done).symm ▸ h.of_restores hRestores

/-- One operation adds what it has done to the journal. -/
theorem perform (hCoherent : s.Coherent issued) (op : Operation α)
    (hThrough : (s.perform op).1.isBreakdown = false) :
    (s.perform op).2.Registered (done ++ s.successes op) := by
  by_cases hList : ∃ cs, op = .addConstraints cs
  · obtain ⟨cs, rfl⟩ := hList
    exact h.addConstraints hCoherent cs hThrough
  · have hOp : ∀ cs, op ≠ .addConstraints cs := fun cs hEq => hList ⟨cs, hEq⟩
    cases hResult : (s.perform op).1.result with
    | error e =>
      rw [successes_of_error hOp hResult, List.append_nil]
      exact h.of_restores (hCoherent.restores_of_refused (refuses_of_error hOp hThrough hResult))
    | ok _ =>
      rw [successes_of_ok hOp hResult]
      cases op with
      | addConstraint c => exact h.addConstraint hResult
      | addConstraints cs => exact absurd rfl (hOp cs)
      | removeConstraint id =>
        obtain ⟨hConstraints, hEdits⟩ := removeConstraint_done hResult
        exact h.remove hConstraints hEdits
      | addEditVariable v w id => exact h.addEditVariable hResult
      | removeEditVariable v => exact h.removeEditVariable hResult
      | suggestValue v x => exact h.suggestValue hResult
      | fetchChanges =>
        have hKept : s.fetchChanges.2.Registered done := h.keep rfl rfl
        exact hKept.note rfl (fun _ => rfl) fun _ _ => rfl
      | nameVariable v name =>
        have hKept : (s.nameVariable v name).Registered done := h.keep rfl rfl
        exact hKept.note rfl (fun _ => rfl) fun _ _ => rfl
      | reset => exact h.reset

theorem run (hCoherent : s.Coherent issued) (ops : List (Operation α)) (hThrough : s.RunsThrough ops) :
    (s.run ops).2.Registered (done ++ s.journal ops) := by
  induction ops generalizing s issued done with
  | nil => exact (List.append_nil done).symm ▸ h
  | cons op rest ih =>
    obtain ⟨hFirst, hRest⟩ := runsThrough_cons.mp hThrough
    obtain ⟨⟨later, hNext⟩, _⟩ := hCoherent.perform op
    have hRun := ih (h.perform hCoherent op hFirst) hNext hRest
    rw [List.append_assoc] at hRun
    exact hRun

end Registered

theorem registered_withPivotLimit (limit : Nat) :
    (withPivotLimit limit : Solver α).Registered [] where
  constraints := rfl
  edits := rfl
  keys e he := by cases he
  live e he := by cases he
  optional v w id hMem := by cases hMem
  values e he := by cases he

theorem registered_reached {limit : Nat} {ops : List (Operation α)}
    (hThrough : (withPivotLimit limit : Solver α).RunsThrough ops) :
    (reached limit ops : Solver α).Registered ((withPivotLimit limit : Solver α).journal ops) :=
  (registered_withPivotLimit limit).run (coherent_withPivotLimit limit) ops hThrough

end Runs

/-- The operation ends an edit variable and its constraint, if it does not break down. -/
def Ends (s : Solver α) (v : Variable) (id : Nat) (op : Operation α) : Prop :=
  (s.perform op).1.isBreakdown = false → (s.perform op).1.result = .ok () ∧
    (s.perform op).2.hasEditVariable v = false ∧ (s.perform op).2.hasConstraint id = false

theorem gone_of_removed (he : (v, edit) ∈ s.edits.entries)
    (hConstraints : next.constraints = s.constraints.erase edit.constraint.id)
    (hEdits : ∀ e ∈ next.edits.entries,
      e ∈ s.edits.entries ∧ e.2.constraint.id ≠ edit.constraint.id) :
    next.hasEditVariable v = false ∧ next.hasConstraint edit.constraint.id = false := by
  have hFree : next.edits.get? v = none := by
    refine Registry.get?_eq_none_iff.mpr fun e hMem hKey => ?_
    obtain ⟨hOld, hOther⟩ := hEdits e hMem
    obtain rfl := s.edits.eq_of_mem_of_key_eq hOld he hKey
    exact hOther rfl
  constructor
  · rw [hasEditVariable, Registry.contains, hFree]
    rfl
  · rw [hasConstraint, Registry.contains, hConstraints, Registry.get?_erase, if_pos rfl]
    rfl

namespace Registered

variable (h : s.Registered done) (he : (v, edit) ∈ s.edits.entries)
include h he

theorem ends_removal : s.Ends v edit.constraint.id (.removeConstraint edit.constraint.id) := by
  intro hThrough
  have hOk := removeConstraint_of_live (h.live _ he) (not_breakdown_of_answer hThrough)
  obtain ⟨hConstraints, hEdits⟩ := removeConstraint_done hOk
  refine ⟨hOk, gone_of_removed he hConstraints fun e hMem => ?_⟩
  rw [show (s.perform (.removeConstraint edit.constraint.id)).2.edits = _ from hEdits] at hMem
  obtain ⟨hOld, hOther⟩ := List.mem_filter.mp hMem
  exact ⟨hOld, by simpa using hOther⟩

theorem ends_retirement : s.Ends v edit.constraint.id (.removeEditVariable v) := by
  intro hThrough
  have hAttempt := removeEditVariable_of_live (Registry.get?_eq_some_iff.mpr he) (h.live _ he)
  have hNever := not_breakdown_of_answer (a := s.removeEditVariable v) hThrough
  rw [hAttempt] at hNever
  have hOk := removeConstraint_of_live (s := { s with edits := s.edits.erase v }) (h.live _ he) hNever
  obtain ⟨hConstraints, hEdits⟩ := removeConstraint_done hOk
  rw [← hAttempt] at hOk hConstraints hEdits
  refine ⟨hOk, gone_of_removed he hConstraints fun e hMem => ?_⟩
  rw [show (s.perform (.removeEditVariable v)).2.edits = _ from hEdits] at hMem
  obtain ⟨hKept, hOther⟩ := List.mem_filter.mp hMem
  exact ⟨(Registry.mem_erase_iff.mp hKept).1, by simpa using hOther⟩

end Registered

/-- After every run without a breakdown and in any arithmetic: the live constraints and the edit variables
are the additions that stand, in their order. Each edit variable has one entry; its constraint holds the
variable at zero with the clipped strength of the registration, is not required, and is live with the same
columns. No two entries share a constraint, and either way of removing the constraint ends both. -/
theorem edit_registry_of_run (limit : Nat) (ops : List (Operation α))
    (hThrough : (withPivotLimit limit : Solver α).RunsThrough ops) :
    let s : Solver α := reached limit ops
    let done := (withPivotLimit limit : Solver α).journal ops
    s.constraintList = Operation.additions done ∧
    s.editVariables = (Operation.registrations done).map Prod.fst ∧
    (∀ v, s.hasEditVariable v = true → ∃! e, (v, e) ∈ s.edits.entries) ∧
    (∀ v e, (v, e) ∈ s.edits.entries →
      s.constraints.get? e.constraint.id = some ⟨e.constraint, e.tag⟩ ∧
      (∃ w : Strength α, w.isRequired = false ∧
        .addEditVariable v w e.constraint.id ∈ Operation.standing done ∧
        e.constraint = .make e.constraint.id (.ofVariable v) .equal w) ∧
      (StrengthOrder α → e.constraint.isRequired = false) ∧
      s.Ends v e.constraint.id (.removeEditVariable v) ∧
      s.Ends v e.constraint.id (.removeConstraint e.constraint.id)) ∧
    ∀ d ∈ s.edits.entries, ∀ e ∈ s.edits.entries, d.2.constraint.id = e.2.constraint.id → d = e := by
  have h := registered_reached hThrough
  refine ⟨h.constraints, ?_, fun v hv => ?_, fun v e he => ⟨h.live _ he, ?_, fun hOrder => ?_,
    h.ends_retirement he, h.ends_removal he⟩, fun d hd e he => h.eq_of_id_eq hd he⟩
  · rw [← h.edits, List.map_map]
    rfl
  · obtain ⟨e, he⟩ := Option.isSome_iff_exists.mp hv
    refine ⟨e, Registry.get?_eq_some_iff.mp he, fun d hd => ?_⟩
    exact Option.some.inj ((Registry.get?_eq_some_iff.mpr hd).symm.trans he)
  · obtain ⟨w, hStanding, hMake⟩ := h.exists_registration he
    exact ⟨w, h.optional v w _ (Operation.mem_of_mem_standing hStanding), hStanding, hMake⟩
  · obtain ⟨w, hStanding, hMake⟩ := h.exists_registration he
    rw [hMake]
    exact Strength.not_required_clip (h.optional v w _ (Operation.mem_of_mem_standing hStanding))

/-- Two edit variables that lose their constraints in the two ways; the first one comes back, and then
once more in vain. -/
def returningEdit : List (Operation Float) :=
  [.addEditVariable ⟨1⟩ .strong 1,
    .addConstraint (.make 2 ⟨[⟨⟨1⟩, 1⟩, ⟨⟨2⟩, -1⟩], 0⟩ .lessOrEqual .required),
    .suggestValue ⟨1⟩ 4,
    .removeConstraint 1,
    .addEditVariable ⟨2⟩ .medium 3,
    .addEditVariable ⟨1⟩ .weak 4,
    .removeEditVariable ⟨2⟩,
    .addEditVariable ⟨1⟩ .strong 5]

theorem edit_registry_of_returningEdit :
    (reached 10 returningEdit).constraintList.map Constraint.id = [2, 4] ∧
      (reached 10 returningEdit).editVariables = [⟨1⟩] ∧
      ∀ e, (⟨1⟩, e) ∈ (reached 10 returningEdit).edits.entries →
        e.constraint.isRequired = false ∧
          (reached 10 returningEdit).constraints.get? e.constraint.id = some ⟨e.constraint, e.tag⟩ := by
  obtain ⟨hConstraints, hEdits, _, hEntries, _⟩ :=
    edit_registry_of_run 10 returningEdit (by decide +kernel)
  refine ⟨?_, ?_, fun e he => ?_⟩
  · rw [hConstraints]
    decide +kernel
  · rw [hEdits]
    decide +kernel
  · obtain ⟨hLive, _, hOptional, _⟩ := hEntries _ e he
    exact ⟨hOptional inferInstance, hLive⟩

end Solver

end SoftSimplex
