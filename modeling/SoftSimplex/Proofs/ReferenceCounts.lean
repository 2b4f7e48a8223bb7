import SoftSimplex.Proofs.BookSteps

/-!
# Reference counts

The references of a variable are the live constraints that mention it, one for each. A step of the
books moves both numbers alike, whatever the arithmetic is. The constraint of a step mentions a variable
once at most, since its terms are merged.
-/

namespace SoftSimplex
set_option autoImplicit false

namespace VariableTable

variable {table : VariableTable} {issued : Set Symbol} {v w : Variable} {last : Nat}
  {vs : List Variable}

/-- The references of a variable; none if it is not tracked. -/
def references (table : VariableTable) (v : Variable) : Nat :=
  (table.records.get? v).elim 0 TrackedVariable.references

theorem references_acquire : (table.acquire w last).2.1.references v =
    table.references v + if w = v then 1 else 0 := by
  rw [acquire, references, references]
  by_cases hSame : w = v
  · subst hSame
    cases table.records.get? w <;> simp [Registry.get?_insert]
  · cases table.records.get? w <;> simp [Registry.get?_insert, hSame]

theorem references_release : (table.release w).2.references v =
    table.references v - if w = v then 1 else 0 := by
  rw [release, references, references]
  by_cases hSame : w = v
  · subst hSame
    cases hGet : table.records.get? w with
    | none => simp [hGet]
    | some r =>
      dsimp only
      split
      · simp [Registry.get?_insert]
      · rename_i hLast
        simp only [Registry.get?_erase, if_true, Option.elim_none, Option.elim_some]
        omega
  · cases hGet : table.records.get? w with
    | none => simp [hSame]
    | some r =>
      dsimp only
      split <;> simp [Registry.get?_insert, Registry.get?_erase, hSame]

theorem references_acquireAll : (table.acquireAll last vs).1.references v =
    table.references v + vs.count v := by
  induction vs generalizing table last with
  | nil => rfl
  | cons w rest ih =>
    rw [acquireAll, ih, references_acquire, List.count_cons, Nat.add_assoc, Nat.add_comm (ite _ _ _)]
    simp only [beq_iff_eq]

theorem references_releaseAll : (table.releaseAll vs).references v =
    table.references v - vs.count v := by
  induction vs generalizing table with
  | nil => rfl
  | cons w rest ih =>
    have hFirst : (table.releaseAll (w :: rest)).references v =
        ((table.release w).2.releaseAll rest).references v := rfl
    rw [hFirst, ih, references_release, List.count_cons, Nat.sub_sub, Nat.add_comm (ite _ _ _)]
    simp only [beq_iff_eq]

theorem Indexed.isTracked_iff_references (h : table.Indexed issued) :
    table.isTracked v = true ↔ 0 < table.references v := by
  rw [isTracked, Registry.contains, references]
  cases hGet : table.records.get? v with
  | none => simp
  | some r => simpa using h.held v r hGet

/-- However many references are given back, and whose, no count that is lowered is zero before. -/
def NeverAtZero (table : VariableTable) : Prop :=
  ∀ vs v r, (table.releaseAll vs).records.get? v = some r → 0 < r.references

theorem Indexed.neverAtZero (h : table.Indexed issued) (hNumbered : Numbered issued last) :
    table.NeverAtZero :=
  fun _ => (indexed_releaseAll h hNumbered).held

end VariableTable

namespace Solver

variable {α : Type} [Scalar α] {issued : Set Symbol} {s next : Solver α}

/-- A variable has one reference for each live constraint that mentions it. -/
def Counted (s : Solver α) : Prop :=
  ∀ v, s.tracked.references v = s.constraintList.countP fun c => v ∈ mentions c.expression.terms

theorem references_encode (s : Solver α) (c : Constraint α) (v : Variable) :
    (s.encode c).2.2.tracked.references v =
      s.tracked.references v + if v ∈ mentions c.expression.terms then 1 else 0 := by
  have hTracked : (s.encode c).2.2.tracked = _ := congrArg Prod.fst (draft_eq_acquireAll s c)
  rw [hTracked, VariableTable.references_acquireAll, c.nodup_mentions.count]

theorem BookStep.counted (h : BookStep s next) (hCounted : s.Counted) : next.Counted := by
  intro v
  have hBefore := hCounted v
  cases h with
  | kept hConstraints hTracked _ =>
    rw [hTracked, constraintList, hConstraints]
    exact hBefore
  | added c hNew hConstraints hTracked _ =>
    rw [hTracked, references_encode, constraintList_insert hNew hConstraints, List.countP_append,
      List.countP_singleton, hBefore]
    simp only [decide_eq_true_eq]
  | removed id live hFound hConstraints hTracked _ =>
    have hPerm : s.constraintList.Perm (live.constraint :: next.constraintList) := by
      rw [constraintList, constraintList, hConstraints]
      exact (Registry.values_perm_erase hFound).map LiveConstraint.constraint
    rw [hPerm.countP_eq, List.countP_cons] at hBefore
    rw [hTracked, VariableTable.references_releaseAll, live.constraint.nodup_mentions.count,
      hBefore]
    simp only [decide_eq_true_eq]
    exact Nat.add_sub_cancel _ _

theorem BookSteps.counted (h : BookSteps s next) (hCounted : s.Counted) : next.Counted := by
  induction h with
  | refl => exact hCounted
  | tail _ hStep ih => exact hStep.counted ih

theorem counted_withPivotLimit (limit : Nat) : (withPivotLimit limit : Solver α).Counted :=
  fun _ => rfl

theorem Coherent.counted_run (h : s.Coherent issued) (hCounted : s.Counted)
    {ops : List (Operation α)} (hRemoves : s.RemovesThrough ops) : (s.run ops).2.Counted := by
  induction ops generalizing s issued with
  | nil => exact hCounted
  | cons op rest ih =>
    obtain ⟨⟨later, hNext⟩, _⟩ := h.perform op
    refine ih hNext ?_ hRemoves.2
    cases hReset : op.isReset with
    | false => exact (h.bookSteps_perform op hReset hRemoves.1).counted hCounted
    | true =>
      cases op <;> cases hReset
      exact counted_withPivotLimit s.pivotLimit

/-- After every run in which no removal breaks down, in any arithmetic: the tracked variables are those
that a live constraint mentions, each with one reference for each such constraint; no release lowers a
count that is zero, be it of the live constraints or of one that has just been encoded; and the two
indexes are inverse to each other, with external symbols of different numbers. -/
theorem references_exact_of_run (limit : Nat) (ops : List (Operation α))
    (hRemoves : (withPivotLimit limit : Solver α).RemovesThrough ops) :
    let s : Solver α := reached limit ops
    (∀ v, s.tracked.isTracked v = true ↔ ∃ c ∈ s.constraintList, v ∈ mentions c.expression.terms) ∧
    (∀ v r, s.tracked.records.get? v = some r →
      r.references = s.constraintList.countP fun c => v ∈ mentions c.expression.terms) ∧
    (s.tracked.NeverAtZero ∧ ∀ c, (s.encode c).2.2.tracked.NeverAtZero) ∧
    (∀ x v, (x, v) ∈ s.tracked.owners.entries ↔ s.tracked.symbol? v = some x) ∧
    (∀ v x, s.tracked.symbol? v = some x → x.isExternal = true) ∧
    (∀ v w x y, s.tracked.symbol? v = some x → s.tracked.symbol? w = some y → x.id = y.id → v = w) := by
  obtain ⟨issued, h⟩ := coherent_reached (α := α) limit ops
  have hCounted : (reached limit ops : Solver α).Counted :=
    (coherent_withPivotLimit limit).counted_run (counted_withPivotLimit limit) hRemoves
  refine ⟨fun v => ?_, fun v r hGet => ?_, ⟨h.indexed.neverAtZero h.numbered, fun c => ?_⟩,
    fun x v => h.indexed.owned (x, v), fun v x hx => (h.indexed.external v x hx).2,
    fun v w x y hv hw hId => ?_⟩
  · rw [h.indexed.isTracked_iff_references, hCounted, List.countP_pos_iff]
    simp only [decide_eq_true_eq]
  · rw [← hCounted v, VariableTable.references, hGet, Option.elim_some]
  · obtain ⟨more, hEncodes⟩ := h.encodes c
    exact hEncodes.coherent.indexed.neverAtZero hEncodes.coherent.numbered
  · have hSame := h.numbered.distinct (h.indexed.external v x hv).1 (h.indexed.external w y hw).1 hId
    exact h.indexed.distinct v w x hv (hSame ▸ hw)

/-- The first of two variables is in two constraints, and then in one; the second one has a negligible
coefficient in both. A constraint that is refused mentions a third one. -/
def sharedVariable : List (Operation Float) :=
  [.addConstraint (.make 1 ⟨[⟨⟨1⟩, 1⟩, ⟨⟨2⟩, 1e-9⟩], -10⟩ .equal .required),
    .addEditVariable ⟨1⟩ .strong 2,
    .addConstraint (.make 3 ⟨[⟨⟨1⟩, 1⟩, ⟨⟨3⟩, 1⟩, ⟨⟨3⟩, -1⟩], -20⟩ .equal .required),
    .removeEditVariable ⟨1⟩]

theorem references_exact_of_sharedVariable :
    ((reached 10 sharedVariable).tracked.isTracked ⟨1⟩ = true ↔
      ∃ c ∈ (reached 10 sharedVariable).constraintList, ⟨1⟩ ∈ mentions c.expression.terms) ∧
    (reached 10 sharedVariable).tracked.records.get? ⟨1⟩ = some ⟨⟨.external, 1⟩, 1⟩ ∧
    (reached 10 sharedVariable).tracked.isTracked ⟨2⟩ = false ∧
    (reached 10 sharedVariable).tracked.isTracked ⟨3⟩ = false := by
  obtain ⟨hTracked, _⟩ := references_exact_of_run 10 sharedVariable (by decide +kernel)
  exact ⟨hTracked ⟨1⟩, by decide +kernel, by decide +kernel, by decide +kernel⟩

end Solver

end SoftSimplex
