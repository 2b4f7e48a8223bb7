import SoftSimplex.Proofs.AcceptedOperations
import SoftSimplex.Proofs.ConstraintShapes
import SoftSimplex.Proofs.ExpressionValue
import SoftSimplex.Proofs.RoundTrip
import SoftSimplex.Layout.Rules

/-!
# Rules that are followed

A rule holds of an assignment exactly if its constraint does. Rules that can be met make a solver that
follows a size with one variable, or run out of pivots on the way. Where some assignment meets all rules as
near to the size as the required ones allow, the solved values do so as well.
-/

namespace SoftSimplex
set_option autoImplicit false

namespace Layout

open Solver (OutOfPivots editConstraint)

variable {rules : List (Rule Rat)} {x : Variable → Rat} {first : Nat} {v : Variable}
  {s : Solver Rat} {size : Rat}

section Rules

def Rule.Holds (x : Variable → Rat) (rule : Rule Rat) : Prop :=
  rule.relation.Holds (rule.left.value x - rule.right.value x)

def Rule.isRequired (rule : Rule Rat) : Bool := rule.strength.clip.isRequired

theorem Rule.holds_toConstraint (rule : Rule Rat) (id : Nat) :
    (rule.toConstraint id).relation.Holds ((rule.toConstraint id).expression.value x) ↔
      rule.Holds x := by
  rw [toConstraint, Constraint.between, Constraint.make, Expression.value_reduced,
    Expression.value_sub, Holds]

/-- The constraints of rules, numbered from a first number on. -/
def constraintsOf (first : Nat) (rules : List (Rule Rat)) : List (Constraint Rat) :=
  List.zipWith Rule.toConstraint rules ((List.range rules.length).map (first + ·))

theorem getElem_constraintsOf {i : Nat} (h : i < (constraintsOf first rules).length)
    (hi : i < rules.length) :
    (constraintsOf first rules)[i] = (rules[i]).toConstraint (first + i) := by
  simp [constraintsOf]

theorem length_constraintsOf (first : Nat) (rules : List (Rule Rat)) :
    (constraintsOf first rules).length = rules.length := by
  simp [constraintsOf]

/-- The constraints of some strengths hold where the rules of these strengths do. -/
theorem holds_constraintsOf (first : Nat) (p : Strength Rat → Prop) :
    (∀ c ∈ constraintsOf first rules, p c.strength → c.relation.Holds (c.expression.value x)) ↔
      ∀ rule ∈ rules, p rule.strength.clip → rule.Holds x := by
  rw [List.forall_mem_iff_forall_getElem, List.forall_mem_iff_forall_getElem]
  constructor
  · intro h i hi
    have hThere : i < (constraintsOf first rules).length := (length_constraintsOf first rules).symm ▸ hi
    have hOne := h i hThere
    rwa [getElem_constraintsOf hThere hi, Rule.holds_toConstraint] at hOne
  · intro h i hThere
    have hi : i < rules.length := length_constraintsOf first rules ▸ hThere
    rw [getElem_constraintsOf hThere hi, Rule.holds_toConstraint]
    exact h i hi

theorem map_id_constraintsOf : (constraintsOf first rules).map Constraint.id =
    (List.range rules.length).map (first + ·) := by
  refine List.ext_getElem (by simp [constraintsOf]) fun i hi _ => ?_
  rw [List.getElem_map, getElem_constraintsOf _ (by simpa [constraintsOf] using hi)]
  simp [Rule.toConstraint, Constraint.between, Constraint.make]

end Rules

/-- Whether building or playing has met the limit on the pivots. -/
def StuckOnPivots {β : Type} (answer : Except LayoutError β) : Prop :=
  ∃ limit, answer = .error (.solver (.breakdown (.iterationLimitExceeded limit)))

theorem reached_of_ok {a : Attempt SolverError Unit (Solver Rat)} (h : a.result = .ok ()) :
    reached a = .ok a.state := by
  rw [reached, h]

theorem stuck_of_outOfPivots {a : Attempt SolverError Unit (Solver Rat)} (h : OutOfPivots a) :
    StuckOnPivots (reached a) := by
  obtain ⟨limit, hLimit⟩ := h
  exact ⟨limit, by rw [reached, hLimit]⟩

/-- A solver has taken in rules, and one variable follows a size. -/
structure Follows (first : Nat) (rules : List (Rule Rat)) (v : Variable) (size : Rat)
    (s : Solver Rat) : Prop where
  inOrder : s.InOrder
  constraints : s.constraintList =
    constraintsOf first rules ++ [editConstraint v .strong (first + rules.length)]
  edit : ∃ tag, s.edits.entries =
    [(v, ⟨tag, editConstraint v .strong (first + rules.length), size⟩)]

theorem follows_of_registration (h : s.InOrder)
    (hConstraints : s.constraintList = constraintsOf first rules) (hEdits : s.edits = ∅) (v : Variable) :
    StuckOnPivots (reached (s.addEditVariable v .strong (first + rules.length))) ∨
      ∃ after, reached (s.addEditVariable v .strong (first + rules.length)) = .ok after ∧
        Follows first rules v 0 after ∧ after.published = s.published := by
  obtain ⟨issued, hSound⟩ := h.sound
  have hNew : s.hasConstraint (first + rules.length) = false := by
    rw [← Bool.not_eq_true, hSound.ledger.hasConstraint_iff, hConstraints, map_id_constraintsOf]
    simp
  have hNone : s.edits.get? v = none := by
    rw [hEdits]
    rfl
  have hFree : s.editRefusal? v .strong = none := by
    rw [Solver.editRefusal?, Solver.hasEditVariable, Registry.contains, hNone]
    decide +kernel
  rcases h.addEditVariable hNew hFree with hStuck | ⟨hOk, hOrder, hMore, ⟨tag, hTag⟩, hSame⟩
  · exact .inl (stuck_of_outOfPivots hStuck)
  · refine .inr ⟨_, reached_of_ok hOk, ⟨hOrder, hConstraints ▸ hMore, tag, ?_⟩, hSame⟩
    rw [hTag, Registry.entries_insert hNone, hEdits]
    rfl

/-- Building runs out of pivots or gives a solver that follows zero, if the required rules can be met. -/
theorem build_follows (h : s.InOrder) (hConstraints : s.constraintList = []) (hEdits : s.edits = ∅)
    (hMeets : ∀ rule ∈ rules, rule.isRequired = true → rule.Holds x) (v : Variable)
    (supply : IdSupply) : StuckOnPivots (build s rules v supply) ∨
      ∃ after, build s rules v supply = .ok after ∧
        Follows supply.nextConstraint rules v 0 after ∧ after.published = s.published := by
  have hBuild : build s rules v supply =
      (reached (s.addConstraints (constraintsOf supply.nextConstraint rules))).bind fun next =>
        reached (next.addEditVariable v .strong (supply.nextConstraint + rules.length)) := rfl
  have hNumbers : ((s.constraintList ++ constraintsOf supply.nextConstraint rules).map
      Constraint.id).Nodup := by
    rw [hConstraints, List.nil_append, map_id_constraintsOf]
    exact List.nodup_range.map fun _ _ => Nat.add_left_cancel
  have hEmpty : s.Feasible x := by
    intro c hc
    rw [hConstraints] at hc
    cases hc
  have hHolds := (holds_constraintsOf supply.nextConstraint fun w => w.isRequired = true).mpr hMeets
  rw [hBuild]
  rcases h.addConstraints hNumbers hEmpty hHolds with hStuck | ⟨hOk, hTakes, _⟩
  · obtain ⟨limit, hLimit⟩ := stuck_of_outOfPivots hStuck
    exact .inl ⟨limit, by rw [hLimit]; rfl⟩
  · rw [reached_of_ok hOk, ← hTakes.published]
    refine follows_of_registration hTakes.inOrder ?_ (hTakes.edits.trans hEdits) v
    rw [hTakes.constraints, hConstraints, List.nil_append]

section Solved

theorem optional_editConstraint {id : Nat} : (editConstraint v .strong id).isRequired = false :=
  Strength.isRequired_clip (by decide +kernel)

theorem strength_editConstraint {id : Nat} :
    (editConstraint v .strong id).strength.value = 1000000 := by
  show (Strength.strong : Strength Rat).clip.value = 1000000
  decide +kernel

variable (h : Follows first rules v size s)
include h

theorem Follows.target_eq (id : Nat) :
    s.target id = if first + rules.length = id then size else 0 := by
  obtain ⟨tag, hEdit⟩ := h.edit
  rw [Solver.target, Registry.values, hEdit, List.map_singleton, List.find?_singleton]
  by_cases hId : first + rules.length = id
  · simp [editConstraint, Constraint.make, hId]
  · simp [editConstraint, Constraint.make, hId]

theorem Follows.residual_of_mem {c : Constraint Rat} (hc : c ∈ constraintsOf first rules) :
    s.residual x c = c.expression.value x := by
  have hNumber := List.mem_map_of_mem (f := Constraint.id) hc
  rw [map_id_constraintsOf] at hNumber
  obtain ⟨i, hi, hId⟩ := List.mem_map.mp hNumber
  rw [Solver.residual, h.target_eq, ← hId, if_neg, sub_zero]
  have := List.mem_range.mp hi
  omega

theorem Follows.residual_edit :
    s.residual x (editConstraint v .strong (first + rules.length)) = x v - size := by
  have hTarget : s.target (editConstraint v .strong (first + rules.length)).id = size :=
    (h.target_eq _).trans (if_pos rfl)
  rw [Solver.residual, hTarget, editConstraint, Constraint.make, Expression.value_reduced,
    Expression.value_ofVariable]

theorem Follows.feasible_iff :
    s.Feasible x ↔ ∀ rule ∈ rules, rule.isRequired = true → rule.Holds x := by
  rw [Solver.Feasible, h.constraints, List.forall_mem_append, List.forall_mem_singleton]
  refine (and_iff_left fun hRequired => ?_).trans (Iff.trans ?_
    (holds_constraintsOf first fun w => w.isRequired = true))
  · cases optional_editConstraint.symm.trans hRequired
  · exact forall₂_congr fun c hc => by rw [h.residual_of_mem hc, Constraint.isRequired]

/-- What the violations of rules cost that need not hold. -/
def rulesCost (s : Solver Rat) (first : Nat) (rules : List (Rule Rat)) (x : Variable → Rat) : Rat :=
  (((constraintsOf first rules).filter fun c => !c.isRequired).map (s.penalty x)).sum

theorem Follows.cost_eq :
    s.cost x = rulesCost s first rules x + 1000000 * |x v - size| := by
  have hOptional : [editConstraint v .strong (first + rules.length)].filter
      (fun c => !c.isRequired) = [editConstraint v .strong (first + rules.length)] :=
    List.filter_eq_self.mpr (by simp [optional_editConstraint])
  rw [Solver.cost, h.constraints, List.filter_append, hOptional, List.map_append, List.sum_append,
    List.map_singleton, List.sum_singleton, Solver.penalty, h.residual_edit, strength_editConstraint,
    editConstraint, Constraint.make, Relation.violation_equal, rulesCost]

theorem Follows.rulesCost_eq_zero (hx : ∀ rule ∈ rules, rule.Holds x) :
    rulesCost s first rules x = 0 := by
  refine List.sum_eq_zero fun p hp => ?_
  obtain ⟨c, hc, rfl⟩ := List.mem_map.mp hp
  have hMem := (List.mem_filter.mp hc).1
  have hHolds := (holds_constraintsOf first fun _ => True).mpr (fun rule hRule _ => hx rule hRule) c hMem
    trivial
  rw [Solver.penalty, h.residual_of_mem hMem, Relation.violation_eq_zero_iff.mpr hHolds, mul_zero]

omit h in
theorem penalties_nonneg : ∀ p ∈ ((constraintsOf first rules).filter fun c => !c.isRequired).map
    (s.penalty x), 0 ≤ p := by
  intro p hp
  obtain ⟨c, _, rfl⟩ := List.mem_map.mp hp
  exact mul_nonneg c.strength_nonneg Relation.violation_nonneg

/-- Rules that cost nothing hold, if each of them weighs something. -/
theorem Follows.holds_of_rulesCost (hFeasible : s.Feasible x) (hCost : rulesCost s first rules x ≤ 0)
    (hWeights : ∀ rule ∈ rules, 0 < rule.strength.clip.value) : ∀ rule ∈ rules, rule.Holds x := by
  -- each penalty is bounded by their sum, so none is left
  have hEach : ∀ c ∈ constraintsOf first rules, 0 < c.strength.value →
      c.relation.Holds (c.expression.value x) := by
    intro c hc hWeight
    rw [← h.residual_of_mem hc]
    cases hRequired : c.isRequired with
    | true =>
      refine hFeasible c ?_ hRequired
      rw [h.constraints]
      exact List.mem_append_left _ hc
    | false =>
      have hMem : c ∈ (constraintsOf first rules).filter fun c => !c.isRequired :=
        List.mem_filter.mpr ⟨hc, by simp [hRequired]⟩
      have hZero : c.strength.value * c.relation.violation (s.residual x c) ≤ 0 :=
        (List.single_le_sum penalties_nonneg _ (List.mem_map_of_mem hMem)).trans hCost
      exact Relation.violation_eq_zero_iff.mp
        (le_antisymm (nonpos_of_mul_nonpos_right hZero hWeight) Relation.violation_nonneg)
  have hRules := (holds_constraintsOf first fun w => 0 < w.value).mp hEach
  exact fun rule hRule => hRules rule hRule (hWeights rule hRule)

/-- Where all rules can be met as near to the size as the required ones allow, the solved values do so. -/
theorem Follows.solved (hWeights : ∀ rule ∈ rules, 0 < rule.strength.clip.value)
    (hx : ∀ rule ∈ rules, rule.Holds x)
    (hNear : ∀ y, (∀ rule ∈ rules, rule.isRequired = true → rule.Holds y) →
      |x v - size| ≤ |y v - size|) :
    (∀ rule ∈ rules, rule.Holds s.solvedValue) ∧ |s.solvedValue v - size| = |x v - size| := by
  obtain ⟨issued, hSound⟩ := h.inOrder.sound
  obtain ⟨hFeasible, hLeast⟩ := hSound.optimal_solved h.inOrder.pinned
  have hCost := hLeast x (h.feasible_iff.mpr fun rule hRule _ => hx rule hRule)
  have hDistance := hNear s.solvedValue (h.feasible_iff.mp hFeasible)
  have hRules : 0 ≤ rulesCost s first rules s.solvedValue := List.sum_nonneg penalties_nonneg
  rw [h.cost_eq, h.cost_eq, h.rulesCost_eq_zero hx] at hCost
  exact ⟨h.holds_of_rulesCost hFeasible (by linarith) hWeights, by linarith⟩

end Solved

end Layout

end SoftSimplex
