import SoftSimplex.Proofs.ConstraintShapes
import SoftSimplex.Proofs.RequiredRemoval

/-!
# Strongest first, up to the weights

Strengths are weights of one objective, so a constraint is given up where that saves more on weaker ones
than it costs. What can be saved is bounded by what the stronger constraints are violated by, times a
factor that depends on the shapes of the constraints only. So the strongest come first where the strengths
are further apart than that.
-/

namespace SoftSimplex
set_option autoImplicit false

/-- Additions of a constraint, registrations of edit variables and suggestions. -/
def Operation.asks {α : Type} [Scalar α] : Operation α → Bool
  | .addConstraint _ => true
  | .addEditVariable _ _ _ => true
  | .suggestValue _ _ => true
  | _ => false

namespace Solver

variable {s : Solver Rat} {w : Strength Rat} {x y z : Variable → Rat} {c : Constraint Rat}

theorem keepsEquations_of_asks {ops : List (Operation Rat)} (h : ∀ op ∈ ops, op.asks = true) :
    s.KeepsEquations ops := by
  induction ops generalizing s with
  | nil => trivial
  | cons op rest ih =>
    obtain ⟨hOp, hRest⟩ := List.forall_mem_cons.mp h
    refine ⟨?_, ih hRest⟩
    cases op with
    | removeConstraint id => cases hOp
    | _ => rfl

/-- An assignment satisfies what is required and every constraint of at least some strength. -/
def MeetsFrom (s : Solver Rat) (w : Strength Rat) (x : Variable → Rat) : Prop :=
  s.Feasible x ∧ ∀ c ∈ s.constraintList, w.value ≤ c.strength.value →
    c.relation.Holds (s.residual x c)

instance (s : Solver Rat) (w : Strength Rat) (x : Variable → Rat) : Decidable (s.MeetsFrom w x) :=
  inferInstanceAs (Decidable (_ ∧ _))

def shapes (s : Solver Rat) : List Shape := s.constraintList.map Constraint.shape

section Costs

/-- The constraints of at least some strength that need not hold. -/
def optionalFrom (s : Solver Rat) (w : Strength Rat) : List (Constraint Rat) :=
  (s.constraintList.filter fun c => !c.isRequired).filter fun c =>
    decide (w.value ≤ c.strength.value)

def optionalBelow (s : Solver Rat) (w : Strength Rat) : List (Constraint Rat) :=
  (s.constraintList.filter fun c => !c.isRequired).filter fun c =>
    !decide (w.value ≤ c.strength.value)

def costFrom (s : Solver Rat) (w : Strength Rat) (x : Variable → Rat) : Rat :=
  ((s.optionalFrom w).map (s.penalty x)).sum

def costBelow (s : Solver Rat) (w : Strength Rat) (x : Variable → Rat) : Rat :=
  ((s.optionalBelow w).map (s.penalty x)).sum

/-- What the stronger constraints are violated by, whatever they weigh. -/
def violationFrom (s : Solver Rat) (w : Strength Rat) (x : Variable → Rat) : Rat :=
  ((s.optionalFrom w).map fun c => c.relation.violation (s.residual x c)).sum

def weightBelow (s : Solver Rat) (w : Strength Rat) : Rat :=
  ((s.optionalBelow w).map fun c => c.strength.value).sum

theorem mem_optionalFrom : c ∈ s.optionalFrom w ↔
    c ∈ s.constraintList ∧ c.isRequired = false ∧ w.value ≤ c.strength.value := by
  simp [optionalFrom, and_assoc, and_comm]

theorem mem_of_mem_optionalBelow (h : c ∈ s.optionalBelow w) : c ∈ s.constraintList :=
  (List.mem_filter.mp (List.mem_filter.mp h).1).1

theorem cost_eq_costFrom_add (s : Solver Rat) (w : Strength Rat) (x : Variable → Rat) :
    s.cost x = s.costFrom w x + s.costBelow w x := by
  have hSplit := List.filter_append_perm (fun c : Constraint Rat => decide (w.value ≤ c.strength.value))
    (s.constraintList.filter fun c => !c.isRequired)
  have hSum := (hSplit.map (s.penalty x)).sum_eq
  rw [List.map_append, List.sum_append] at hSum
  exact hSum.symm

theorem violation_le_violationFrom (h : c ∈ s.optionalFrom w) :
    c.relation.violation (s.residual x c) ≤ s.violationFrom w x := by
  refine List.single_le_sum (fun p hp => ?_) _ (List.mem_map_of_mem h)
  obtain ⟨d, _, rfl⟩ := List.mem_map.mp hp
  exact Relation.violation_nonneg

theorem violationFrom_nonneg (s : Solver Rat) (w : Strength Rat) (x : Variable → Rat) :
    0 ≤ s.violationFrom w x := by
  refine List.sum_nonneg fun p hp => ?_
  obtain ⟨c, _, rfl⟩ := List.mem_map.mp hp
  exact Relation.violation_nonneg

theorem MeetsFrom.costFrom_eq_zero (h : s.MeetsFrom w x) : s.costFrom w x = 0 := by
  refine List.sum_eq_zero fun p hp => ?_
  obtain ⟨c, hc, rfl⟩ := List.mem_map.mp hp
  obtain ⟨hMem, _, hStrong⟩ := mem_optionalFrom.mp hc
  rw [penalty, Relation.violation_eq_zero_iff.mpr (h.2 c hMem hStrong), mul_zero]

/-- What residuals that stay near to each other can save on the weaker constraints. -/
theorem costBelow_le {ε : Rat} (h : ∀ c ∈ s.constraintList, |s.residual x c - s.residual y c| ≤ ε) :
    s.costBelow w x ≤ s.costBelow w y + s.weightBelow w * ε := by
  have hEach : ∀ c ∈ s.optionalBelow w, s.penalty x c ≤ s.penalty y c + c.strength.value * ε := by
    intro c hc
    have hViolation : c.relation.violation (s.residual x c) -
        c.relation.violation (s.residual y c) ≤ ε :=
      Relation.violation_sub_le.trans (h c (mem_of_mem_optionalBelow hc))
    have hWeighed := mul_le_mul_of_nonneg_left hViolation c.strength_nonneg
    rw [penalty, penalty]
    linarith
  have hSum := List.sum_le_sum hEach
  rwa [List.sum_map_add, List.sum_map_mul_right] at hSum

end Costs

theorem residual_eq_form (s : Solver Rat) (x : Variable → Rat) (c : Constraint Rat) :
    s.residual x c = c.shape.form x - (s.target c.id - c.expression.constant) := by
  rw [residual, Expression.value, Shape.form_apply, Constraint.shape]
  ring

/-- An assignment that satisfies what is required can be changed into one that meets all constraints of at
least some strength, if there is any, at a distance within a factor of what they are violated by. -/
theorem exists_meetsFrom {K : Rat} (hRepairs : RepairsShapes s.shapes K) (hFeasible : s.Feasible y)
    (hz : s.MeetsFrom w z) : ∃ x, s.MeetsFrom w x ∧ ∀ c ∈ s.constraintList,
      |s.residual x c - s.residual y c| ≤ K * s.violationFrom w y := by
  have hMeets : ∀ x, s.MeetsFrom w x ↔ ∀ c ∈ s.constraintList,
      (c.isRequired = true ∨ w.value ≤ c.strength.value) → c.relation.Holds (s.residual x c) := by
    intro x
    constructor
    · rintro h c hc (hRequired | hStrong)
      · exact h.1 c hc hRequired
      · exact h.2 c hc hStrong
    · exact fun h => ⟨fun c hc hRequired => h c hc (.inl hRequired),
        fun c hc hStrong => h c hc (.inr hStrong)⟩
  have hMiss : ∀ c ∈ s.constraintList, (c.isRequired = true ∨ w.value ≤ c.strength.value) →
      c.relation.violation (s.residual y c) ≤ s.violationFrom w y := by
    intro c hc hAsked
    cases hRequired : c.isRequired with
    | true =>
      rw [Relation.violation_eq_zero_iff.mpr (hFeasible c hc hRequired)]
      exact s.violationFrom_nonneg w y
    | false =>
      have hStrong := hAsked.resolve_left (by simp [hRequired])
      exact violation_le_violationFrom (mem_optionalFrom.mpr ⟨hc, hRequired, hStrong⟩)
  simp only [residual_eq_form s] at hMeets hMiss
  obtain ⟨x, hx, hNear⟩ := hRepairs s.constraintList rfl
    (fun c => c.isRequired = true ∨ w.value ≤ c.strength.value)
    (fun c => s.target c.id - c.expression.constant) z ((hMeets z).mp hz) y _
    (s.violationFrom_nonneg w y) hMiss
  refine ⟨x, (hMeets x).mpr hx, fun c hc => ?_⟩
  rw [residual_eq_form, residual_eq_form, sub_sub_sub_cancel_right]
  exact hNear c hc

/-- No trade pays where the strengths are further apart than the factor times all weaker ones. -/
theorem meetsFrom_of_apart {K : Rat} (hRepairs : RepairsShapes s.shapes K) (hFeasible : s.Feasible y)
    (hLeast : ∀ x, s.Feasible x → s.cost y ≤ s.cost x) (hz : s.MeetsFrom w z)
    (hApart : ∀ c ∈ s.optionalFrom w, K * s.weightBelow w < c.strength.value) : s.MeetsFrom w y := by
  obtain ⟨x, hx, hNear⟩ := exists_meetsFrom hRepairs hFeasible hz
  have hSaved := costBelow_le (w := w) hNear
  have hCost := hLeast x hx.1
  rw [cost_eq_costFrom_add s w, cost_eq_costFrom_add s w, hx.costFrom_eq_zero] at hCost
  -- what is left of each penalty after the savings that its violation can bring
  have hNonneg : ∀ p ∈ (s.optionalFrom w).map fun c =>
      (c.strength.value - K * s.weightBelow w) * c.relation.violation (s.residual y c), 0 ≤ p := by
    intro p hp
    obtain ⟨c, hc, rfl⟩ := List.mem_map.mp hp
    exact mul_nonneg (sub_nonneg.mpr (hApart c hc).le) Relation.violation_nonneg
  have hSplit : s.costFrom w y = ((s.optionalFrom w).map fun c =>
      (c.strength.value - K * s.weightBelow w) * c.relation.violation (s.residual y c)).sum +
        K * s.weightBelow w * s.violationFrom w y := by
    rw [costFrom, violationFrom, ← List.sum_map_mul_left, ← List.sum_map_add]
    refine congrArg List.sum (List.map_congr_left fun c _ => ?_)
    rw [penalty]
    ring
  have hTotal : ((s.optionalFrom w).map fun c =>
      (c.strength.value - K * s.weightBelow w) * c.relation.violation (s.residual y c)).sum ≤ 0 := by
    linarith
  refine ⟨hFeasible, fun c hc hStrong => ?_⟩
  cases hRequired : c.isRequired with
  | true => exact hFeasible c hc hRequired
  | false =>
    have hMem := mem_optionalFrom.mpr ⟨hc, hRequired, hStrong⟩
    have hTerm := (List.single_le_sum hNonneg _ (List.mem_map_of_mem hMem)).trans hTotal
    have hPositive := sub_pos.mpr (hApart c hMem)
    refine Relation.violation_eq_zero_iff.mp (le_antisymm ?_ Relation.violation_nonneg)
    exact nonpos_of_mul_nonpos_right hTerm hPositive

/-- After every run of additions and suggestions without a breakdown, measured from the last suggestions:
where what is required and all constraints from some strength up can be met at once, they violate at most
what that saves on the weaker ones, by weight; they are met if every assignment that violates one of them
is outdone by another; and so they are if each of them is stronger than all weaker ones together, times a
factor that comes from the shapes of the constraints alone. -/
theorem strongest_first_of_run (limit : Nat) (ops : List (Operation Rat))
    (hAsks : ∀ op ∈ ops, op.asks = true)
    (hOk : (withPivotLimit limit : Solver Rat).RunsThrough ops) :
    let s : Solver Rat := reached limit ops
    (∀ id, s.target id =
        Operation.lastSuggestion ((withPivotLimit limit : Solver Rat).journal ops) id) ∧
      0 ≤ tradeFactor s.shapes ∧
      ∀ (w : Strength Rat) (z : Variable → Rat), s.MeetsFrom w z →
        (s.costFrom w s.solvedValue ≤ s.costBelow w z - s.costBelow w s.solvedValue) ∧
        ((∀ y, s.Feasible y → ¬ s.MeetsFrom w y → ∃ x, s.Feasible x ∧ s.cost x < s.cost y) →
          s.MeetsFrom w s.solvedValue) ∧
        ((∀ c ∈ s.optionalFrom w, tradeFactor s.shapes * s.weightBelow w < c.strength.value) →
          s.MeetsFrom w s.solvedValue) := by
  refine ⟨target_reached hOk, tradeFactor_nonneg _, fun w z hz => ?_⟩
  obtain ⟨issued, hSound⟩ := sound_reached hOk
  have hPinned := pinned_reached hOk (keepsEquations_of_asks hAsks)
  have hFeasible := hSound.feasible_solved hPinned
  have hLeast : ∀ x, (reached limit ops).Feasible x → _ := fun x hx =>
    hSound.cost_solved_le hPinned hx
  refine ⟨?_, fun hOutdone => ?_,
    meetsFrom_of_apart (repairsShapes_tradeFactor _) hFeasible hLeast hz⟩
  · have hCost := hLeast z hz.1
    rw [cost_eq_costFrom_add _ w, cost_eq_costFrom_add _ w, hz.costFrom_eq_zero] at hCost
    linarith
  · by_contra hNot
    obtain ⟨x, hx, hLess⟩ := hOutdone _ hFeasible hNot
    exact absurd (hLeast x hx) (not_le.mpr hLess)

/-- A number that is to be zero, and strongly to be a hundred. -/
def hundredBeside (weaker : Strength Rat) : List (Operation Rat) :=
  [.addConstraint (.make 1 ⟨[⟨⟨1⟩, 1⟩], 0⟩ .equal weaker),
    .addEditVariable ⟨1⟩ .strong 2,
    .suggestValue ⟨1⟩ 100]

/-- Not strong by one part in a thousand. -/
def almostStrong : Strength Rat := .ofTiers 0 999 0 1

/-- A strong constraint, and two weaker ones that together weigh more. -/
def oneAgainstTwo : List (Operation Rat) :=
  [.addConstraint (.make 1 ⟨[⟨⟨1⟩, 1⟩], -100⟩ .equal .strong),
    .addConstraint (.make 2 ⟨[⟨⟨1⟩, 1⟩], 0⟩ .equal almostStrong),
    .addConstraint (.make 3 ⟨[⟨⟨1⟩, 1⟩], 0⟩ .equal almostStrong)]

theorem constraintList_almostStrong : (reached 10 (hundredBeside almostStrong)).constraintList =
    [.make 1 ⟨[⟨⟨1⟩, 1⟩], 0⟩ .equal almostStrong, .make 2 ⟨[⟨⟨1⟩, 1⟩], 0⟩ .equal .strong] := by
  decide +kernel

theorem residual_almostStrong (x : Variable → Rat) (w : Strength Rat) :
    (reached 10 (hundredBeside almostStrong)).residual x (.make 1 ⟨[⟨⟨1⟩, 1⟩], 0⟩ .equal w) = x ⟨1⟩ ∧
      (reached 10 (hundredBeside almostStrong)).residual x (.make 2 ⟨[⟨⟨1⟩, 1⟩], 0⟩ .equal w) =
        x ⟨1⟩ - 100 := by
  have hTarget : (reached 10 (hundredBeside almostStrong)).target 1 = 0 ∧
      (reached 10 (hundredBeside almostStrong)).target 2 = 100 := by
    decide +kernel
  simp [residual, hTarget, Constraint.make, Expression.reduced, Expression.mergeTerm,
    Expression.value, Term.value]

theorem cost_almostStrong (x : Variable → Rat) : (reached 10 (hundredBeside almostStrong)).cost x =
    999000 * |x ⟨1⟩| + 1000000 * |x ⟨1⟩ - 100| := by
  obtain ⟨hFirst, _⟩ := residual_almostStrong x almostStrong
  obtain ⟨_, hSecond⟩ := residual_almostStrong x .strong
  have hOptional : (reached 10 (hundredBeside almostStrong)).constraintList.filter
      (fun c => !c.isRequired) = (reached 10 (hundredBeside almostStrong)).constraintList := by
    decide +kernel
  have hWeights : (almostStrong : Strength Rat).clip.value = 999000 ∧
      (Strength.strong : Strength Rat).clip.value = 1000000 := by
    decide +kernel
  rw [cost, hOptional, constraintList_almostStrong, List.map_cons, List.map_singleton, List.sum_cons,
    List.sum_singleton, penalty, penalty, hFirst, hSecond]
  simp [Constraint.make, hWeights, Relation.violation_equal]

/-- Only a hundred meets the suggestion, and whatever else saves less than it costs. -/
theorem outdone_almostStrong {y : Variable → Rat}
    (hNot : ¬ (reached 10 (hundredBeside almostStrong)).MeetsFrom .strong y) :
    (reached 10 (hundredBeside almostStrong)).cost (fun _ => 100) <
      (reached 10 (hundredBeside almostStrong)).cost y := by
  have hOther : y ⟨1⟩ ≠ 100 := by
    intro hHundred
    have hNone : ∀ c ∈ (reached 10 (hundredBeside almostStrong)).constraintList,
        c.isRequired = false := by
      decide +kernel
    have hSecond : ∀ c ∈ (reached 10 (hundredBeside almostStrong)).constraintList,
        (Strength.strong : Strength Rat).value ≤ c.strength.value →
          c = .make 2 ⟨[⟨⟨1⟩, 1⟩], 0⟩ .equal .strong := by
      decide +kernel
    refine hNot ⟨fun c hc hRequired => ?_, fun c hc hStrong => ?_⟩
    · cases (hNone c hc).symm.trans hRequired
    · rw [hSecond c hc hStrong, (residual_almostStrong y .strong).2, hHundred]
      exact sub_self 100
  have hApart := abs_pos.mpr (sub_ne_zero.mpr hOther)
  have hSaved := abs_sub_abs_le_abs_sub (100 : Rat) (y ⟨1⟩)
  rw [abs_sub_comm, abs_of_pos (show (0 : Rat) < 100 by norm_num)] at hSaved
  rw [cost_almostStrong, cost_almostStrong, sub_self, abs_zero, abs_of_pos (by norm_num)]
  linarith

/-- A suggestion of a hundred holds against a weak zero by the factor, and against one that is almost as
strong by what each assignment costs. Two of those save more than it weighs. -/
theorem strongest_first_of_hundredBeside :
    ((reached 10 (hundredBeside .weak)).target 2 = 100 ∧
        (reached 10 (hundredBeside .weak)).weightBelow .strong = 1 ∧
        (reached 10 (hundredBeside .weak)).MeetsFrom .strong
          (reached 10 (hundredBeside .weak)).solvedValue) ∧
      (reached 10 (hundredBeside almostStrong)).MeetsFrom .strong
        (reached 10 (hundredBeside almostStrong)).solvedValue ∧
      (reached 10 oneAgainstTwo).costFrom .strong (reached 10 oneAgainstTwo).solvedValue = 100000000 ∧
      100000000 ≤ (reached 10 oneAgainstTwo).costBelow .strong (fun _ => 100) -
        (reached 10 oneAgainstTwo).costBelow .strong (reached 10 oneAgainstTwo).solvedValue := by
  obtain ⟨hTarget, _, hWeak⟩ := strongest_first_of_run 10 (hundredBeside .weak) (by decide)
    (by decide +kernel)
  obtain ⟨_, _, hAlmost⟩ := strongest_first_of_run 10 (hundredBeside almostStrong) (by decide)
    (by decide +kernel)
  obtain ⟨_, _, hTraded⟩ := strongest_first_of_run 10 oneAgainstTwo (by decide) (by decide +kernel)
  have hSuggested : Operation.lastSuggestion
      ((withPivotLimit 10 : Solver Rat).journal (hundredBeside .weak)) 2 = 100 := by
    decide +kernel
  have hApart : ∀ c ∈ (reached 10 (hundredBeside .weak)).optionalFrom .strong,
      tradeFactor (reached 10 (hundredBeside .weak)).shapes *
        (reached 10 (hundredBeside .weak)).weightBelow .strong < c.strength.value := by
    decide +kernel
  have hCost : (reached 10 oneAgainstTwo).costFrom .strong (reached 10 oneAgainstTwo).solvedValue =
      100000000 := by
    decide +kernel
  refine ⟨⟨(hTarget 2).trans hSuggested, by decide +kernel, ?_⟩, ?_, hCost, ?_⟩
  · exact (hWeak .strong (fun _ => 100) (by decide +kernel)).2.2 hApart
  · refine (hAlmost .strong (fun _ => 100) (by decide +kernel)).2.1 fun y _ hNot => ?_
    exact ⟨fun _ => 100, by decide +kernel, outdone_almostStrong hNot⟩
  · exact hCost ▸ (hTraded .strong (fun _ => 100) (by decide +kernel)).1

/-- The number is zero, though it could be a hundred. -/
theorem not_forall_strongest_first : ¬ ∀ (limit : Nat) (ops : List (Operation Rat)) (w : Strength Rat),
    (∀ op ∈ ops, op.asks = true) → (withPivotLimit limit : Solver Rat).RunsThrough ops →
    (∃ z, (reached limit ops).MeetsFrom w z) →
    (reached limit ops).MeetsFrom w (reached limit ops).solvedValue := by
  intro hAll
  have hMet := hAll 10 oneAgainstTwo .strong (by decide) (by decide +kernel)
    ⟨fun _ => 100, by decide +kernel⟩
  revert hMet
  decide +kernel

end Solver

end SoftSimplex
