import SoftSimplex.Proofs.LastSuggestions

/-!
# Solved values are feasible and optimal

At the solved values every column is admissible, so every required constraint holds, and the cost is
at most what the objective shows. Any other feasible assignment of the variables extends to an
admissible solution of the tableau at which the objective shows exactly its cost, and the objective
is least at the solved values.
-/

namespace SoftSimplex
set_option autoImplicit false

open Tableau (Admissible)

namespace VariableTable

variable {issued : Set Symbol} {table : VariableTable} {last : Nat} {x : Variable → Rat}
  {v : Variable} {y : Symbol}

/-- The columns of the tracked variables, at given values of the variables. -/
def externalValues (table : VariableTable) (x : Variable → Rat) (n : Nat) : Rat :=
  (table.records.entries.find? fun e => e.2.symbol.id == n).elim 0 fun e => x e.1

theorem externalValues_of_symbol? (hNumbered : Numbered issued last) (hNamed : table.Named issued)
    (h : table.symbol? v = some y) : table.externalValues x y.id = x v := by
  obtain ⟨r, hGet, rfl⟩ := Option.map_eq_some_iff.mp h
  have hSome : (table.records.entries.find? fun e => e.2.symbol.id == r.symbol.id).isSome :=
    List.find?_isSome.mpr ⟨(v, r), Registry.get?_eq_some_iff.mp hGet, by simp⟩
  obtain ⟨e, hFound⟩ := Option.isSome_iff_exists.mp hSome
  have hId : e.2.symbol.id = r.symbol.id := by simpa using List.find?_some hFound
  have hOwner : table.symbol? e.1 = some e.2.symbol := by
    rw [symbol?, Registry.get?_eq_some_iff.mpr (List.mem_of_find?_eq_some hFound)]
    rfl
  have hSame := hNumbered.distinct (hNamed.external _ _ hOwner).1 (hNamed.external _ _ h).1 hId
  rw [externalValues, hFound, Option.elim_some, hNamed.distinct e.1 v _ hOwner (hSame ▸ h)]

theorem externalValues_of_restricted (hNumbered : Numbered issued last)
    (hNamed : table.Named issued) (hy : y ∈ issued) (hKind : y.isExternal = false) :
    table.externalValues x y.id = 0 := by
  have hNone : (table.records.entries.find? fun e => e.2.symbol.id == y.id) = none := by
    refine List.find?_eq_none.mpr fun e he hId => ?_
    have hOwner : table.symbol? e.1 = some e.2.symbol := by
      rw [symbol?, Registry.get?_eq_some_iff.mpr he]
      rfl
    obtain ⟨hIssued, hExternal⟩ := hNamed.external _ _ hOwner
    rw [hNumbered.distinct hIssued hy (by simpa using hId), hKind] at hExternal
    cases hExternal
  rw [externalValues, hNone, Option.elim_none]

end VariableTable

namespace Solver

variable {issued : Set Symbol} {s : Solver Rat} {x : Variable → Rat} {l : LiveConstraint Rat}
  {a : Nat → Rat}

theorem exists_least (lives : List (LiveConstraint Rat)) (r : LiveConstraint Rat → Rat)
    (hMarks : ∀ l ∈ lives, l.tag.Marks l.constraint) (hApart : lives.Pairwise LiveConstraint.Apart)
    (hHolds : ∀ l ∈ lives, l.constraint.isRequired = true → l.constraint.relation.Holds (r l))
    (a : Nat → Rat) :
    ∃ b, (∀ l ∈ lives, l.tag.Least l.constraint (r l) b) ∧
      ∀ n, (∀ l ∈ lives, ∀ y ∈ l.tag.symbols, y.id ≠ n) → b n = a n := by
  induction lives with
  | nil => exact ⟨a, by simp, fun _ _ => rfl⟩
  | cons k rest ih =>
    obtain ⟨hFirst, hRest⟩ := List.pairwise_cons.mp hApart
    obtain ⟨b, hLeast, hOthers⟩ := ih (fun l hl => hMarks l (List.mem_cons_of_mem _ hl)) hRest
      fun l hl => hHolds l (List.mem_cons_of_mem _ hl)
    refine ⟨k.tag.withLeastColumns k.constraint.relation (r k) b, fun l hl => ?_, fun n hn => ?_⟩
    · rcases List.mem_cons.mp hl with rfl | hl
      · exact (hMarks l List.mem_cons_self).least (hHolds l List.mem_cons_self) b
      · exact (hLeast l hl).congr fun y hy =>
          Tag.withLeastColumns_of_ne fun z hz => hFirst l hl z hz y hy
    · rw [Tag.withLeastColumns_of_ne (hn k List.mem_cons_self)]
      exact hOthers n fun l hl => hn l (List.mem_cons_of_mem _ hl)

theorem mem_constraintList {c : Constraint Rat} :
    c ∈ s.constraintList ↔ ∃ l ∈ s.constraints.values, l.constraint = c :=
  List.mem_map

theorem cost_eq_sum (s : Solver Rat) (x : Variable → Rat) : s.cost x =
    (s.constraints.values.map fun l =>
      if l.constraint.isRequired then 0 else s.penalty x l.constraint).sum := by
  rw [cost, constraintList]
  induction s.constraints.values with
  | nil => rfl
  | cons l rest ih =>
    rw [List.map_cons, List.filter_cons, List.map_cons, List.sum_cons, ← ih]
    cases l.constraint.isRequired <;> simp

/-- Columns at which the variables have given values and the live constraints the least errors. -/
structure Completes (s : Solver Rat) (x : Variable → Rat) (a : Nat → Rat) : Prop where
  least : ∀ l ∈ s.constraints.values, l.tag.Least l.constraint (s.residual x l.constraint) a
  others : ∀ n, (∀ l ∈ s.constraints.values, ∀ y ∈ l.tag.symbols, y.id ≠ n) →
    a n = s.tracked.externalValues x n

section Assignment

variable (h : s.Ledger issued)
include h

theorem Ledger.exists_completes (hFeasible : s.Feasible x) : ∃ a, s.Completes x a := by
  obtain ⟨a, hLeast, hOthers⟩ := exists_least s.constraints.values
    (fun l => s.residual x l.constraint) h.marks h.apart
    (fun l hl => hFeasible _ (mem_constraintList.mpr ⟨l, hl, rfl⟩)) (s.tracked.externalValues x)
  exact ⟨a, hLeast, hOthers⟩

section Completes

variable (ha : s.Completes x a)
include ha

theorem Ledger.valuation_completes {v : Variable} (hv : v ∈ s.mentioned) :
    s.tracked.valuation a v = x v := by
  obtain ⟨y, hy⟩ := h.counts.tracked v hv
  obtain ⟨hIssued, hExternal⟩ := h.named.external v y hy
  have hFree : a y.id = s.tracked.externalValues x y.id := by
    refine ha.others y.id fun l hl z hz hId => ?_
    have hRestricted := (h.marks l hl).restricted hz
    rw [h.numbered.distinct (h.columns l hl z hz) hIssued hId, hExternal] at hRestricted
    cases hRestricted
  rw [VariableTable.valuation_of_symbol? hy, hFree,
    VariableTable.externalValues_of_symbol? h.numbered h.named hy]

theorem Ledger.equation_completes (hl : l ∈ s.constraints.values) : s.equation l a = 0 := by
  have hResidual : s.residual (s.tracked.valuation a) l.constraint = s.residual x l.constraint := by
    rw [residual, residual, Expression.value_congr fun v hv =>
      h.valuation_completes ha (mem_mentioned hl hv)]
  rw [equation, hResidual]
  exact (ha.least l hl).equation

theorem Ledger.admissible_completes : Admissible issued a := by
  intro y hy
  by_cases hOwned : ∃ l ∈ s.constraints.values, ∃ z ∈ l.tag.symbols, z.id = y.id
  · obtain ⟨l, hl, z, hz, hId⟩ := hOwned
    obtain rfl := h.numbered.distinct (h.columns l hl z hz) hy hId
    exact ⟨fun _ => (ha.least l hl).nonneg z hz, (ha.least l hl).dummy z hz⟩
  · have hFree : a y.id = s.tracked.externalValues x y.id :=
      ha.others y.id fun l hl z hz hId => hOwned ⟨l, hl, z, hz, hId⟩
    have hZero : y.isExternal = false → a y.id = 0 := fun hKind => by
      rw [hFree, VariableTable.externalValues_of_restricted h.numbered h.named hy hKind]
    exact ⟨fun hKind => (hZero hKind).ge, fun hDummy => hZero (Symbol.isExternal_of_isDummy hDummy)⟩

theorem Ledger.errorCost_completes : s.errorCost a = s.cost x := by
  rw [cost_eq_sum, errorCost]
  refine congrArg List.sum (List.map_congr_left fun l hl => ?_)
  cases hRequired : l.constraint.isRequired with
  | true =>
    rw [Tag.errorSum, (h.marks l hl).errors_of_required hRequired]
    simp
  | false =>
    rw [(ha.least l hl).errors hRequired]
    simp [penalty]

end Completes

theorem Ledger.feasible_of_columns (ha : Admissible issued a)
    (hEquations : ∀ l ∈ s.constraints.values, s.equation l a = 0) :
    s.Feasible (s.tracked.valuation a) := by
  intro c hc hRequired
  obtain ⟨l, hl, rfl⟩ := mem_constraintList.mp hc
  have hMarks := h.marks l hl
  exact hMarks.holds hRequired (hEquations l hl)
    (fun y hy => (ha y (h.columns l hl y hy)).1 (hMarks.restricted hy))
    fun y hy => (ha y (h.columns l hl y hy)).2

theorem Ledger.cost_le_errorCost (ha : Admissible issued a)
    (hEquations : ∀ l ∈ s.constraints.values, s.equation l a = 0) :
    s.cost (s.tracked.valuation a) ≤ s.errorCost a := by
  rw [cost_eq_sum, errorCost]
  refine List.sum_le_sum fun l hl => ?_
  have hMarks := h.marks l hl
  have hNonneg : ∀ y ∈ l.tag.symbols, 0 ≤ a y.id := fun y hy =>
    (ha y (h.columns l hl y hy)).1 (hMarks.restricted hy)
  cases hRequired : l.constraint.isRequired with
  | true =>
    rw [Tag.errorSum, hMarks.errors_of_required hRequired]
    simp
  | false =>
    simp only [Bool.false_eq_true, if_false, penalty]
    exact mul_le_mul_of_nonneg_left (hMarks.violation_le hRequired (hEquations l hl) hNonneg)
      (Constraint.strength_nonneg _)

end Assignment

theorem solvedValue_eq (s : Solver Rat) :
    s.solvedValue = s.tracked.valuation (s.tableau.complete 0) := by
  funext v
  rw [solvedValue, VariableTable.valuation, VariableTable.symbol?]
  cases s.tracked.records.get? v with
  | none => rfl
  | some r => exact Tableau.value_eq_complete _ _

section Solved

variable (h : s.Sound issued)
include h

theorem Sound.solved_equations :
    ∀ l ∈ s.constraints.values, s.equation l (s.tableau.complete 0) = 0 :=
  (h.meaning.rows _).mp h.rest.regular.solved.satisfies_complete

variable (hPinned : s.tableau.Pinned)
include hPinned

theorem Sound.admissible_solved : Admissible issued (s.tableau.complete 0) := fun _ hy =>
  ⟨h.rest.feasible.complete_nonneg h.rest.regular.solved h.ledger.numbered.distinct hy,
    hPinned.complete_eq_zero h.rest.regular.solved h.ledger.numbered.distinct (fun _ _ _ => rfl) hy⟩

theorem Sound.feasible_solved : s.Feasible s.solvedValue := by
  rw [solvedValue_eq]
  exact h.ledger.feasible_of_columns (h.admissible_solved hPinned) h.solved_equations

theorem Sound.cost_solved_le (hFeasible : s.Feasible x) : s.cost s.solvedValue ≤ s.cost x := by
  obtain ⟨k, hk⟩ := h.meaning.objective
  obtain ⟨a, ha⟩ := h.ledger.exists_completes hFeasible
  have hSolved := hk (s.tableau.complete 0) h.rest.regular.solved.satisfies_complete
  have hOther := hk a ((h.meaning.rows a).mpr fun l hl => h.ledger.equation_completes ha hl)
  have hLeast : s.tableau.objective.constant ≤ s.tableau.objective.value a :=
    Tableau.constant_le_value_of_admissible h.rest.regular.solved.columns.objective
      h.rest.regular.separate.objective h.rest.dualFeasible
      (h.ledger.admissible_completes ha)
  have hConstant : s.tableau.objective.value (s.tableau.complete 0) =
      s.tableau.objective.constant := by
    rw [h.rest.regular.solved.objective_complete, Row.constant_eq_value]
  have hErrors : s.errorCost (s.tableau.complete 0) ≤ s.errorCost a := by
    linarith
  calc s.cost s.solvedValue
      = s.cost (s.tracked.valuation (s.tableau.complete 0)) := by rw [solvedValue_eq]
    _ ≤ s.errorCost (s.tableau.complete 0) :=
        h.ledger.cost_le_errorCost (h.admissible_solved hPinned) h.solved_equations
    _ ≤ s.errorCost a := hErrors
    _ = s.cost x := h.ledger.errorCost_completes ha

end Solved

/-- After every run that neither breaks down nor removes an equation that must hold, the solved
values satisfy what is required, at the least cost. Feasibility and cost are measured from the last
suggestions of the run. -/
theorem solved_values_optimal_of_run (limit : Nat) (ops : List (Operation Rat))
    (hOk : (withPivotLimit limit : Solver Rat).RunsThrough ops)
    (hKeeps : (withPivotLimit limit : Solver Rat).KeepsEquations ops) :
    (∀ id, (reached limit ops).target id =
        Operation.lastSuggestion ((withPivotLimit limit : Solver Rat).journal ops) id) ∧
      (reached limit ops).Feasible (reached limit ops).solvedValue ∧
      ∀ x, (reached limit ops).Feasible x →
        (reached limit ops).cost (reached limit ops).solvedValue ≤ (reached limit ops).cost x := by
  obtain ⟨issued, hSound⟩ := sound_reached hOk
  have hPinned := pinned_reached hOk hKeeps
  exact ⟨target_reached hOk, hSound.feasible_solved hPinned,
    fun _ hx => hSound.cost_solved_le hPinned hx⟩

/-- The first of the two numbers ends at three, one short of the suggested four. -/
theorem solved_values_optimal_of_splitOfTen :
    (reached 10 splitOfTen).target 2 = 4 ∧ (reached 10 splitOfTen).solvedValue ⟨1⟩ = 3 ∧
      ∀ x, (reached 10 splitOfTen).Feasible x → 1000000 ≤ (reached 10 splitOfTen).cost x := by
  have hSuggested : Operation.lastSuggestion
      ((withPivotLimit 10 : Solver Rat).journal splitOfTen) 2 = 4 := by
    decide +kernel
  have hCost : (reached 10 splitOfTen).cost (reached 10 splitOfTen).solvedValue = 1000000 := by
    decide +kernel
  obtain ⟨hTarget, _, hLeast⟩ :=
    solved_values_optimal_of_run 10 splitOfTen (by decide +kernel) (by decide +kernel)
  exact ⟨(hTarget 2).trans hSuggested, by decide +kernel, fun x hx => hCost ▸ hLeast x hx⟩

end Solver

end SoftSimplex
