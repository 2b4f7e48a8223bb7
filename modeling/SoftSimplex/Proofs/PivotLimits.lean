import SoftSimplex.Proofs.SolverRuns

/-!
# Higher limits on the pivots

A limit on the pivots only cuts passes short. A pass that ends before its limit takes the same pivots
under every higher one, so an operation that does not report the limit gives the same answer and leaves
the same solver, whatever the arithmetic is, and a run that never reports it goes through the same
solvers. The limit itself is all in which they differ.
-/

namespace SoftSimplex
set_option autoImplicit false

/-- The pass has run out of pivots. -/
def Tableau.MeetsLimit {β σ : Type} (a : Attempt Breakdown β σ) : Prop :=
  ∃ limit t, a = .failed (.iterationLimitExceeded limit) t

namespace Tableau

variable {α : Type} [Scalar α] {t : Tableau α} {goal : Goal} {limit higher budget more : Nat}

theorem optimizeWithin_of_le (hBudget : budget ≤ more) :
    MeetsLimit (optimizeWithin goal limit budget t) ∨
      optimizeWithin goal higher more t = optimizeWithin goal limit budget t := by
  induction budget generalizing more t with
  | zero =>
    cases hEntering : t.entering? goal with
    | none =>
      right
      cases more <;> simp only [optimizeWithin, hEntering]
    | some entering =>
      left
      rw [optimizeWithin, hEntering]
      exact ⟨limit, t, rfl⟩
  | succ left ih =>
    obtain ⟨more, rfl⟩ := Nat.exists_eq_add_of_le' hBudget
    rw [← Nat.add_assoc, optimizeWithin, optimizeWithin]
    cases t.entering? goal with
    | none => exact .inr rfl
    | some entering =>
      dsimp only
      cases t.leavingRow? entering with
      | none => exact .inr rfl
      | some e => exact ih (Nat.le_add_left left more)

theorem dualOptimizeWithin_of_le (hBudget : budget ≤ more) :
    MeetsLimit (dualOptimizeWithin limit budget t) ∨
      dualOptimizeWithin higher more t = dualOptimizeWithin limit budget t := by
  induction budget generalizing more t with
  | zero =>
    cases hNext : nextViolated? t.rows t.infeasible with
    | none =>
      right
      cases more <;> simp only [dualOptimizeWithin, hNext]
    | some next =>
      obtain ⟨leaving, row, rest⟩ := next
      cases hEntering : ({ t with infeasible := rest } : Tableau α).dualEntering? row with
      | none =>
        right
        cases more <;> simp only [dualOptimizeWithin, hNext, hEntering]
      | some entering =>
        left
        simp only [dualOptimizeWithin, hNext, hEntering]
        exact ⟨limit, _, rfl⟩
  | succ left ih =>
    obtain ⟨more, rfl⟩ := Nat.exists_eq_add_of_le' hBudget
    rw [← Nat.add_assoc, dualOptimizeWithin, dualOptimizeWithin]
    cases nextViolated? t.rows t.infeasible with
    | none => exact .inr rfl
    | some next =>
      obtain ⟨leaving, row, rest⟩ := next
      dsimp only
      cases ({ t with infeasible := rest } : Tableau α).dualEntering? row with
      | none => exact .inr rfl
      | some entering => exact ih (Nat.le_add_left left more)

variable (hLimit : limit ≤ higher)
include hLimit

theorem optimize_of_le (t : Tableau α) (goal : Goal) :
    MeetsLimit (t.optimize goal limit) ∨ t.optimize goal higher = t.optimize goal limit :=
  optimizeWithin_of_le hLimit

theorem dualOptimize_of_le (t : Tableau α) :
    MeetsLimit (t.dualOptimize limit) ∨ t.dualOptimize higher = t.dualOptimize limit :=
  dualOptimizeWithin_of_le hLimit

theorem settle_of_le (t : Tableau α) :
    MeetsLimit (t.settle limit) ∨ t.settle higher = t.settle limit := by
  rw [settle, settle]
  rcases optimize_of_le hLimit t .primary with ⟨k, u, hLow⟩ | hSame
  · rw [hLow]
    exact .inl ⟨k, u, rfl⟩
  · rw [hSame]
    split
    · exact dualOptimize_of_le hLimit _
    · exact .inr rfl

theorem insertArtificially_of_le (t : Tableau α) (fresh : Symbol) (row : Row α) :
    MeetsLimit (t.insertArtificially limit fresh row) ∨
      t.insertArtificially higher fresh row = t.insertArtificially limit fresh row := by
  rw [insertArtificially, insertArtificially]
  dsimp only
  rcases optimize_of_le hLimit (⟨(t.insertRow fresh row).rows, (t.insertRow fresh row).objective,
    some row, (t.insertRow fresh row).infeasible, (t.insertRow fresh row).touched⟩ : Tableau α)
    .artificial with ⟨k, u, hLow⟩ | hSame
  · rw [hLow]
    exact .inl ⟨k, _, rfl⟩
  · rw [hSame]
    exact .inr rfl

end Tableau

def Reply.meetsLimit {α : Type} (r : Reply α) : Bool :=
  match r.result with
  | .error (.breakdown (.iterationLimitExceeded _)) => true
  | _ => false

/-- The operation has reported the limit on the pivots. -/
def Solver.MeetsLimit {β σ : Type} (a : Attempt SolverError β σ) : Prop :=
  ∃ limit s, a = .failed (.breakdown (.iterationLimitExceeded limit)) s

namespace Solver

variable {α β : Type} [Scalar α] {s : Solver α} {limit : Nat}

def withLimit (s : Solver α) (limit : Nat) : Solver α := { s with pivotLimit := limit }

/-- The same attempt, with another limit in the solver that it leaves behind. -/
def relimit (limit : Nat) (a : Attempt SolverError β (Solver α)) :
    Attempt SolverError β (Solver α) :=
  ⟨a.result, a.state.withLimit limit⟩

theorem pivotLimit_of_relimit {a : Attempt SolverError β (Solver α)} (h : a = relimit limit a) :
    a.state.pivotLimit = limit := by
  rw [h]
  rfl

/-- No reply of a run reports the limit on the pivots. -/
def RunsWithinLimit (s : Solver α) (ops : List (Operation α)) : Prop :=
  ∀ reply ∈ (s.run ops).1, reply.meetsLimit = false

instance decidableRunsWithinLimit (s : Solver α) (ops : List (Operation α)) :
    Decidable (s.RunsWithinLimit ops) :=
  inferInstanceAs (Decidable (∀ reply ∈ (s.run ops).1, reply.meetsLimit = false))

theorem runsWithinLimit_cons {op : Operation α} {rest : List (Operation α)} :
    s.RunsWithinLimit (op :: rest) ↔
      (s.perform op).1.meetsLimit = false ∧ (s.perform op).2.RunsWithinLimit rest :=
  List.forall_mem_cons

section Release

theorem releaseTerm_withLimit (s : Solver α) (term : Term α) :
    (s.withLimit limit).releaseTerm term = (s.releaseTerm term).withLimit limit := by
  rw [releaseTerm, releaseTerm]
  split <;> rfl

theorem release_withLimit (s : Solver α) (c : Constraint α) :
    (s.withLimit limit).release c = (s.release c).withLimit limit := by
  rw [release, release]
  induction c.expression.terms generalizing s with
  | nil => rfl
  | cons term rest ih => rw [List.foldl_cons, List.foldl_cons, releaseTerm_withLimit, ih]

theorem discard_withLimit (s : Solver α) (c : Constraint α) (tag : Tag) :
    (s.withLimit limit).discard c tag = (s.discard c tag).withLimit limit :=
  release_withLimit ({ s with tableau := { s.tableau with
    objective := tag.errors.foldl Row.remove s.tableau.objective } } : Solver α) c

end Release

section Operations

variable (hLimit : s.pivotLimit ≤ limit)
include hLimit

theorem accept_withLimit (c : Constraint α) (tag : Tag) :
    MeetsLimit (s.accept c tag) ∨ (s.withLimit limit).accept c tag = relimit limit (s.accept c tag) := by
  rw [accept, accept]
  dsimp only [withLimit]
  rcases Tableau.settle_of_le hLimit s.tableau with ⟨k, t, hLow⟩ | hSame
  · rw [hLow]
    exact .inl ⟨k, _, rfl⟩
  · rw [hSame]
    right
    split <;> rfl

theorem insertByPhaseOne_withLimit (c : Constraint α) (tag : Tag) (row : Row α) :
    MeetsLimit (s.insertByPhaseOne c tag row) ∨
      (s.withLimit limit).insertByPhaseOne c tag row =
        relimit limit (s.insertByPhaseOne c tag row) := by
  have hRefused : ∀ (e : SolverError) (t : Tableau α),
      (.failed e ((({ s.withLimit limit with lastSymbol := s.lastSymbol + 1 } :
        Solver α).rollBack t).discard c tag) : Attempt SolverError Tag (Solver α)) =
      relimit limit (.failed e ((({ s with lastSymbol := s.lastSymbol + 1 } :
        Solver α).rollBack t).discard c tag)) := fun e t =>
    congrArg (Attempt.failed e)
      (discard_withLimit (({ s with lastSymbol := s.lastSymbol + 1 } : Solver α).rollBack t) c tag)
  rw [insertByPhaseOne, insertByPhaseOne]
  dsimp only [withLimit] at hRefused ⊢
  rcases Tableau.insertArtificially_of_le hLimit s.tableau ⟨.slack, s.lastSymbol + 1⟩ row
    with ⟨k, t, hLow⟩ | hSame
  · rw [hLow]
    exact .inl ⟨k, _, rfl⟩
  · rw [hSame]
    split
    · rename_i t _
      exact accept_withLimit (s := ({ s with lastSymbol := s.lastSymbol + 1 } : Solver α).absorb t)
        hLimit c tag
    · exact .inr (hRefused _ _)
    · exact .inr (hRefused _ _)

theorem insertConstraint_withLimit (c : Constraint α) :
    MeetsLimit (s.insertConstraint c) ∨
      (s.withLimit limit).insertConstraint c = relimit limit (s.insertConstraint c) := by
  have hHas : (s.withLimit limit).hasConstraint c.id = s.hasConstraint c.id := rfl
  have hEncode : (s.withLimit limit).encode c =
    ((s.encode c).1, (s.encode c).2.1, (s.encode c).2.2.withLimit limit) := rfl
  rw [insertConstraint, insertConstraint, hHas, hEncode]
  cases s.hasConstraint c.id with
  | true => exact .inr rfl
  | false =>
    dsimp only [Bool.false_eq_true, if_false]
    cases Placement.of (s.encode c).1 (s.encode c).2.1 with
    | basic subject =>
      exact accept_withLimit (s := (s.encode c).2.2.absorb _) hLimit c (s.encode c).2.1
    | contradiction =>
      exact .inr (congrArg (Attempt.failed _) (discard_withLimit (s.encode c).2.2 c _))
    | phaseOne => exact insertByPhaseOne_withLimit (s := (s.encode c).2.2) hLimit c _ _

theorem addConstraint_withLimit (c : Constraint α) :
    MeetsLimit (s.addConstraint c) ∨
      (s.withLimit limit).addConstraint c = relimit limit (s.addConstraint c) := by
  rw [addConstraint, addConstraint]
  rcases insertConstraint_withLimit hLimit c with ⟨k, next, hLow⟩ | hSame
  · rw [hLow]
    exact .inl ⟨k, next, rfl⟩
  · rw [hSame]
    exact .inr rfl

theorem removeConstraint_withLimit (id : Nat) :
    MeetsLimit (s.removeConstraint id) ∨
      (s.withLimit limit).removeConstraint id = relimit limit (s.removeConstraint id) := by
  rw [removeConstraint, removeConstraint]
  dsimp only [withLimit]
  cases s.constraints.get? id with
  | none => exact .inr rfl
  | some live =>
    dsimp only
    cases (s.tableau.forget live).dropMarker? live.tag.marker with
    | none => exact .inr rfl
    | some t =>
      dsimp only
      rcases Tableau.settle_of_le hLimit t with ⟨k, u, hLow⟩ | hSame
      · rw [hLow]
        exact .inl ⟨k, _, rfl⟩
      · rw [hSame]
        right
        obtain ⟨cause | _, u⟩ := t.settle s.pivotLimit
        · rfl
        · exact congrArg (fun next : Solver α => Attempt.done () (next.retireEdit id))
            (release_withLimit (({ s with constraints := s.constraints.erase id } :
              Solver α).absorb u) live.constraint)

theorem addEditVariable_withLimit (v : Variable) (w : Strength α) (id : Nat) :
    MeetsLimit (s.addEditVariable v w id) ∨
      (s.withLimit limit).addEditVariable v w id = relimit limit (s.addEditVariable v w id) := by
  have hRefusal : (s.withLimit limit).editRefusal? v w = s.editRefusal? v w := rfl
  rw [addEditVariable, addEditVariable, hRefusal]
  split
  · exact .inr rfl
  · dsimp only
    rcases insertConstraint_withLimit hLimit (.make id (.ofVariable v) .equal w)
      with ⟨k, next, hLow⟩ | hSame
    · rw [hLow]
      exact .inl ⟨k, next, rfl⟩
    · rw [hSame]
      right
      generalize s.insertConstraint (.make id (.ofVariable v) .equal w) = a
      obtain ⟨e | tag, next⟩ := a
      · cases e <;> rfl
      · rfl

theorem removeEditVariable_withLimit (v : Variable) :
    MeetsLimit (s.removeEditVariable v) ∨
      (s.withLimit limit).removeEditVariable v = relimit limit (s.removeEditVariable v) := by
  rw [removeEditVariable, removeEditVariable]
  dsimp only [withLimit]
  split
  · exact .inr rfl
  · rename_i edit _
    have hRemoval := removeConstraint_withLimit (s := { s with edits := s.edits.erase v }) hLimit
      edit.constraint.id
    dsimp only [withLimit] at hRemoval
    rcases hRemoval with ⟨k, next, hLow⟩ | hSame
    · rw [hLow]
      exact .inl ⟨k, next, rfl⟩
    · rw [hSame]
      right
      generalize ({ s with edits := s.edits.erase v } : Solver α).removeConstraint
        edit.constraint.id = a
      obtain ⟨e | _, next⟩ := a
      · cases e <;> rfl
      · rfl

theorem suggestValue_withLimit (v : Variable) (x : α) :
    MeetsLimit (s.suggestValue v x) ∨
      (s.withLimit limit).suggestValue v x = relimit limit (s.suggestValue v x) := by
  rw [suggestValue, suggestValue]
  dsimp only [withLimit]
  split
  · exact .inr rfl
  · rename_i edit _
    split
    · exact .inr rfl
    · split
      · exact .inr rfl
      · rcases Tableau.dualOptimize_of_le hLimit (s.tableau.shiftEdit edit.tag (x - edit.value))
          with ⟨k, u, hLow⟩ | hSame
        · rw [hLow]
          exact .inl ⟨k, _, rfl⟩
        · rw [hSame]
          right
          split <;> rfl

theorem addConstraints_withLimit (cs : List (Constraint α)) :
    MeetsLimit (s.addConstraints cs) ∨
      (s.withLimit limit).addConstraints cs = relimit limit (s.addConstraints cs) := by
  induction cs generalizing s with
  | nil => exact .inr rfl
  | cons c rest ih =>
    have hOwn : MeetsLimit (s.addConstraint c) ∨
        s.addConstraint c = relimit s.pivotLimit (s.addConstraint c) :=
      addConstraint_withLimit (le_refl s.pivotLimit) c
    rw [addConstraints, addConstraints]
    rcases addConstraint_withLimit hLimit c with ⟨k, next, hLow⟩ | hSame
    · rw [hLow]
      exact .inl ⟨k, next, rfl⟩
    · rw [hSame]
      generalize s.addConstraint c = a at hOwn
      obtain ⟨e | _, next⟩ := a
      · exact .inr rfl
      · refine ih ?_
        rcases hOwn with ⟨k, _, hLow⟩ | hOwn
        · cases hLow
        · exact (pivotLimit_of_relimit hOwn).le.trans hLimit

/-- One operation: the reply reports the limit, or it is the same under a higher one. -/
theorem perform_withLimit (op : Operation α) :
    (s.perform op).1.meetsLimit = true ∨ (s.withLimit limit).perform op =
      ((s.perform op).1, (s.perform op).2.withLimit limit) := by
  have hAnswer : ∀ {a b : Attempt SolverError Unit (Solver α)}, MeetsLimit a ∨ b = relimit limit a →
      (answer a).1.meetsLimit = true ∨ answer b = ((answer a).1, (answer a).2.withLimit limit) := by
    rintro a b (⟨k, next, rfl⟩ | rfl)
    · exact .inl rfl
    · exact .inr rfl
  cases op with
  | addConstraint c => exact hAnswer (addConstraint_withLimit hLimit c)
  | addConstraints cs => exact hAnswer (addConstraints_withLimit hLimit cs)
  | removeConstraint id => exact hAnswer (removeConstraint_withLimit hLimit id)
  | addEditVariable v w id => exact hAnswer (addEditVariable_withLimit hLimit v w id)
  | removeEditVariable v => exact hAnswer (removeEditVariable_withLimit hLimit v)
  | suggestValue v x => exact hAnswer (suggestValue_withLimit hLimit v x)
  | fetchChanges => exact .inr rfl
  | nameVariable v name => exact .inr rfl
  | reset => exact .inr rfl

theorem run_withLimit {ops : List (Operation α)} (hWithin : s.RunsWithinLimit ops) :
    (s.withLimit limit).run ops = ((s.run ops).1, (s.run ops).2.withLimit limit) := by
  induction ops generalizing s with
  | nil => rfl
  | cons op rest ih =>
    obtain ⟨hFirst, hRest⟩ := runsWithinLimit_cons.mp hWithin
    have hSame := (perform_withLimit hLimit op).resolve_left (Bool.eq_false_iff.mp hFirst)
    have hOwn := (perform_withLimit (le_refl s.pivotLimit) op).resolve_left (Bool.eq_false_iff.mp hFirst)
    have hStill : (s.perform op).2.pivotLimit = s.pivotLimit :=
      congrArg (fun p => p.2.pivotLimit) hOwn
    have hLater := ih (hStill.le.trans hLimit) hRest
    rw [run, run, hSame]
    dsimp only
    rw [hLater]

end Operations

theorem replies_take (s : Solver α) (ops : List (Operation α)) (n : Nat) :
    (s.run (ops.take n)).1 = (s.run ops).1.take n := by
  induction ops generalizing s n with
  | nil => simp [run]
  | cons op rest ih =>
    cases n with
    | zero => rfl
    | succ n => exact congrArg (_ :: ·) (ih _ n)

theorem RunsWithinLimit.take {ops : List (Operation α)} (h : s.RunsWithinLimit ops) (n : Nat) :
    s.RunsWithinLimit (ops.take n) := by
  intro reply hReply
  rw [replies_take] at hReply
  exact h reply (List.mem_of_mem_take hReply)

/-- A run that never reports its limit on the pivots gives the same replies under every higher limit,
and after each number of operations it has come to the same solver, up to the limit itself. -/
theorem run_unchanged_of_higher_limit {limit higher : Nat} (hLimit : limit ≤ higher)
    (ops : List (Operation α)) (hWithin : (withPivotLimit limit : Solver α).RunsWithinLimit ops) :
    ((withPivotLimit higher : Solver α).run ops).1 = ((withPivotLimit limit : Solver α).run ops).1 ∧
      ∀ n, (reached higher (ops.take n) : Solver α) =
        { (reached limit (ops.take n) : Solver α) with pivotLimit := higher } := by
  have hRun : ∀ {start : List (Operation α)}, (withPivotLimit limit : Solver α).RunsWithinLimit start →
      (withPivotLimit higher : Solver α).run start =
        (((withPivotLimit limit).run start).1, (reached limit start).withLimit higher) :=
    fun hStart => run_withLimit (s := withPivotLimit limit) hLimit hStart
  refine ⟨?_, fun n => ?_⟩
  · rw [hRun hWithin]
  · rw [reached, hRun (hWithin.take n)]
    rfl

/-- One pivot is the least limit that this run stays within, and no higher one changes a reply. -/
theorem splitOfTen_unchanged_above_one :
    ¬ (withPivotLimit 0 : Solver Rat).RunsWithinLimit splitOfTen ∧
      ((withPivotLimit 10000 : Solver Rat).run splitOfTen).1 =
        ((withPivotLimit 1 : Solver Rat).run splitOfTen).1 :=
  ⟨by decide +kernel,
    (run_unchanged_of_higher_limit (by decide) splitOfTen (by decide +kernel)).1⟩

end Solver

end SoftSimplex
