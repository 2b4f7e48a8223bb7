import SoftSimplex.Proofs.AssignmentRepair
import SoftSimplex.Proofs.ConstraintColumns

/-!
# Shapes of constraints

The shape of a constraint is what does not depend on its strength and its constant: its terms and its
relation. Shapes alone say how far an assignment that violates some constraints by a little is from one
that satisfies them, whatever the constants are and whichever of the constraints are asked for.
-/

namespace SoftSimplex
set_option autoImplicit false

namespace Relation

variable {relation : Relation} {x y : Rat}

theorem excess_eq_max (x : Rat) : excess x = max x 0 := by
  rw [excess, max_def_lt']

theorem violation_nonneg : 0 ≤ relation.violation x := by
  cases relation with
  | lessOrEqual => exact excess_nonneg x
  | equal => exact add_nonneg (excess_nonneg x) (excess_nonneg (-x))
  | greaterOrEqual => exact excess_nonneg (-x)

theorem violation_equal (x : Rat) : violation .equal x = |x| := by
  simp only [violation, excess_eq_max]
  rcases le_total 0 x with h | h
  · rw [max_eq_left h, max_eq_right (neg_nonpos.mpr h), add_zero, abs_of_nonneg h]
  · rw [max_eq_right h, max_eq_left (neg_nonneg.mpr h), zero_add, abs_of_nonpos h]

theorem violation_eq_zero_iff : relation.violation x = 0 ↔ relation.Holds x := by
  cases relation with
  | lessOrEqual => simp [violation, Holds, excess_eq_max]
  | equal => rw [violation_equal, abs_eq_zero, Holds]
  | greaterOrEqual => simp [violation, Holds, excess_eq_max]

theorem violation_sub_le : relation.violation x - relation.violation y ≤ |x - y| := by
  cases relation with
  | lessOrEqual =>
    simp only [violation, excess_eq_max]
    exact (le_abs_self _).trans (abs_max_sub_max_le_abs x y 0)
  | equal =>
    rw [violation_equal, violation_equal]
    exact abs_sub_abs_le_abs_sub x y
  | greaterOrEqual =>
    simp only [violation, excess_eq_max]
    refine (le_abs_self _).trans ((abs_max_sub_max_le_abs (-x) (-y) 0).trans_eq ?_)
    rw [neg_sub_neg, abs_sub_comm]

end Relation

/-- What of a constraint depends neither on its strength nor on its constant. -/
structure Shape where
  terms : List (Term Rat)
  relation : Relation

def Constraint.shape (c : Constraint Rat) : Shape := ⟨c.expression.terms, c.relation⟩

namespace Shape

variable {shape : Shape} {x : Variable → Rat} {offset δ : Rat} {side : Bool}

def form (shape : Shape) : LinearForm := .ofTerms shape.terms

theorem form_apply (shape : Shape) (x : Variable → Rat) :
    shape.form x = (shape.terms.map (Term.value x)).sum := LinearForm.ofTerms_apply shape.terms x

def support (shape : Shape) : Finset Variable := (shape.terms.map Term.var).toFinset

theorem dependsOn_form {s : Finset Variable} (h : shape.support ⊆ s) : shape.form.DependsOn s :=
  LinearForm.dependsOn_ofTerms fun _ ht => h (List.mem_toFinset.mpr (List.mem_map_of_mem ht))

/-- The form that a constraint of this shape bounds from above, on either side. -/
def bounded (shape : Shape) (upper : Bool) : LinearForm :=
  match shape.relation, upper with
  | .greaterOrEqual, true => 0
  | _, true => shape.form
  | .lessOrEqual, false => 0
  | _, false => -shape.form

def bound (shape : Shape) (offset : Rat) (upper : Bool) : Rat :=
  match shape.relation, upper with
  | .greaterOrEqual, true => 0
  | _, true => offset
  | .lessOrEqual, false => 0
  | _, false => -offset

theorem dependsOn_bounded {s : Finset Variable} (h : shape.support ⊆ s) (side : Bool) :
    (shape.bounded side).DependsOn s := by
  have hForm := dependsOn_form h
  have hNeg : (-shape.form).DependsOn s := by
    rw [← zero_sub]
    exact LinearForm.DependsOn.zero.sub hForm
  unfold bounded
  split
  · exact .zero
  · exact hForm
  · exact .zero
  · exact hNeg

theorem holds_iff : shape.relation.Holds (shape.form x - offset) ↔
    ∀ side, shape.bounded side x ≤ shape.bound offset side := by
  rw [Bool.forall_bool]
  cases hRelation : shape.relation with
  | lessOrEqual => simp [bounded, bound, hRelation, Relation.Holds]
  | equal => simp [bounded, bound, hRelation, Relation.Holds, le_antisymm_iff, and_comm]
  | greaterOrEqual => simp [bounded, bound, hRelation, Relation.Holds]

theorem bounded_le_of_violation (hδ : 0 ≤ δ)
    (h : shape.relation.violation (shape.form x - offset) ≤ δ) (side : Bool) :
    shape.bounded side x ≤ shape.bound offset side + δ := by
  cases hRelation : shape.relation with
  | lessOrEqual =>
    rw [hRelation, Relation.violation, Relation.excess_eq_max, max_le_iff] at h
    cases side <;> simp only [bounded, bound, hRelation, LinearMap.zero_apply] <;> linarith
  | equal =>
    rw [hRelation, Relation.violation_equal, abs_le] at h
    cases side <;> simp only [bounded, bound, hRelation, LinearMap.neg_apply] <;> linarith
  | greaterOrEqual =>
    rw [hRelation, Relation.violation, Relation.excess_eq_max, max_le_iff] at h
    cases side <;>
      simp only [bounded, bound, hRelation, LinearMap.zero_apply, LinearMap.neg_apply] <;> linarith

end Shape

section Factor

/-- Whatever is asked for in a family of shapes, what misses it by a little is near to what meets it: no
form need change by more than the factor times the miss. -/
def RepairsFamily {ι : Type} (shapes : ι → Shape) (K : Rat) : Prop :=
  ∀ (S : Finset ι) (offset : ι → Rat) (z : Variable → Rat),
    (∀ i ∈ S, (shapes i).relation.Holds ((shapes i).form z - offset i)) →
    ∀ (y : Variable → Rat) (δ : Rat), 0 ≤ δ →
      (∀ i ∈ S, (shapes i).relation.violation ((shapes i).form y - offset i) ≤ δ) →
      ∃ x, (∀ i ∈ S, (shapes i).relation.Holds ((shapes i).form x - offset i)) ∧
        ∀ i, |(shapes i).form x - (shapes i).form y| ≤ K * δ

section Family

variable {ι : Type} [DecidableEq ι] {shapes : ι → Shape} {vars : List Variable} {S : Finset ι}
  {offset : ι → Rat} {x y : Variable → Rat} {δ : Rat}

/-- The inequalities of a selection of shapes. -/
def selected (shapes : ι → Shape) (S : Finset ι) (k : ι × Bool) : LinearForm :=
  if k.1 ∈ S then (shapes k.1).bounded k.2 else 0

def selectedBound (shapes : ι → Shape) (S : Finset ι) (offset : ι → Rat) (k : ι × Bool) : Rat :=
  if k.1 ∈ S then (shapes k.1).bound (offset k.1) k.2 else 0

theorem dependsOn_selected (hVars : ∀ i, (shapes i).support ⊆ vars.toFinset) (k : ι × Bool) :
    (selected shapes S k).DependsOn vars.toFinset := by
  unfold selected
  split
  · exact Shape.dependsOn_bounded (hVars k.1) k.2
  · exact .zero

theorem selected_le_iff : (∀ k, selected shapes S k x ≤ selectedBound shapes S offset k) ↔
    ∀ i ∈ S, (shapes i).relation.Holds ((shapes i).form x - offset i) := by
  constructor
  · intro h i hi
    refine Shape.holds_iff.mpr fun side => ?_
    simpa only [selected, selectedBound, hi, if_true] using h (i, side)
  · intro h k
    unfold selected selectedBound
    split
    · rename_i hk
      exact Shape.holds_iff.mp (h k.1 hk) k.2
    · exact le_rfl

theorem selected_le_of_violation (hδ : 0 ≤ δ)
    (hMiss : ∀ i ∈ S, (shapes i).relation.violation ((shapes i).form y - offset i) ≤ δ)
    (k : ι × Bool) : selected shapes S k y ≤ selectedBound shapes S offset k + δ := by
  unfold selected selectedBound
  split
  · rename_i hk
    exact Shape.bounded_le_of_violation hδ (hMiss k.1 hk) k.2
  · rw [zero_add]
    exact hδ

variable [Fintype ι]

/-- A factor for a family of shapes: what the selections of it need, times what its forms weigh. -/
def familyFactor (shapes : ι → Shape) (vars : List Variable) : Rat :=
  mass vars.toFinset (fun i => (shapes i).form) * ∑ S, repairFactor vars (selected shapes S)

theorem familyFactor_nonneg (shapes : ι → Shape) (vars : List Variable) :
    0 ≤ familyFactor shapes vars :=
  mul_nonneg (mass_nonneg _ _) (Finset.sum_nonneg fun _ _ => repairFactor_nonneg _ _)

theorem repairsFamily (hVars : ∀ i, (shapes i).support ⊆ vars.toFinset) :
    RepairsFamily shapes (familyFactor shapes vars) := by
  intro S offset z hz y δ hδ hMiss
  obtain ⟨x, hx, hNear⟩ := repairs_repairFactor vars (selected shapes S) (dependsOn_selected hVars)
    (selectedBound shapes S offset) z (selected_le_iff.mpr hz) y δ hδ (selected_le_of_violation hδ hMiss)
  refine ⟨x, selected_le_iff.mp hx, fun i => ?_⟩
  have hFactor := repairFactor_nonneg vars (selected shapes S)
  have hMoved : |(shapes i).form (x - y)| ≤
      mass vars.toFinset (fun i => (shapes i).form) * (repairFactor vars (selected shapes S) * δ) :=
    (Shape.dependsOn_form (hVars i)).abs_apply_le_mass (f := fun i => (shapes i).form)
      (mul_nonneg hFactor hδ) hNear
  have hOne : repairFactor vars (selected shapes S) ≤ ∑ S, repairFactor vars (selected shapes S) :=
    Finset.single_le_sum (f := fun S => repairFactor vars (selected shapes S))
      (fun _ _ => repairFactor_nonneg _ _) (Finset.mem_univ S)
  rw [map_sub] at hMoved
  calc |(shapes i).form x - (shapes i).form y|
      ≤ mass vars.toFinset (fun i => (shapes i).form) *
          (repairFactor vars (selected shapes S) * δ) := hMoved
    _ ≤ mass vars.toFinset (fun i => (shapes i).form) *
          ((∑ S, repairFactor vars (selected shapes S)) * δ) :=
        mul_le_mul_of_nonneg_left (mul_le_mul_of_nonneg_right hOne hδ) (mass_nonneg _ _)
    _ = familyFactor shapes vars * δ := (mul_assoc _ _ _).symm

end Family

/-- The same for the constraints of a list that have a property, when their values are taken off some
offsets. -/
def RepairsShapes (shapes : List Shape) (K : Rat) : Prop :=
  ∀ cs : List (Constraint Rat), cs.map Constraint.shape = shapes →
    ∀ (P : Constraint Rat → Prop) (offset : Constraint Rat → Rat) (z : Variable → Rat),
      (∀ c ∈ cs, P c → c.relation.Holds (c.shape.form z - offset c)) →
      ∀ (y : Variable → Rat) (δ : Rat), 0 ≤ δ →
        (∀ c ∈ cs, P c → c.relation.violation (c.shape.form y - offset c) ≤ δ) →
        ∃ x, (∀ c ∈ cs, P c → c.relation.Holds (c.shape.form x - offset c)) ∧
          ∀ c ∈ cs, |c.shape.form x - c.shape.form y| ≤ K * δ

/-- How much the forms of some shapes need change, at most, for a unit by which some of them are missed. -/
def tradeFactor (shapes : List Shape) : Rat :=
  familyFactor shapes.get (shapes.flatMap fun shape => shape.terms.map Term.var).dedup

theorem tradeFactor_nonneg (shapes : List Shape) : 0 ≤ tradeFactor shapes := familyFactor_nonneg _ _

theorem repairsShapes_tradeFactor (shapes : List Shape) :
    RepairsShapes shapes (tradeFactor shapes) := by
  classical
  have hVars : ∀ i, (shapes.get i).support ⊆
      (shapes.flatMap fun shape => shape.terms.map Term.var).dedup.toFinset := by
    intro i v hv
    rw [List.mem_toFinset, List.mem_dedup]
    exact List.mem_flatMap_of_mem (List.get_mem shapes i) (List.mem_toFinset.mp hv)
  have hRepairs := repairsFamily hVars
  rintro cs rfl P offset z hz y δ hδ hMiss
  have hLength : (cs.map Constraint.shape).length = cs.length := List.length_map _
  let item := fun i : Fin (cs.map Constraint.shape).length => cs.get (i.cast hLength)
  have hShape : ∀ i, (cs.map Constraint.shape).get i = (item i).shape := fun i => by
    rw [List.get_eq_getElem, List.getElem_map]
    rfl
  have hItem : ∀ i, item i ∈ cs := fun i => List.get_mem _ _
  have hIndex : ∀ c ∈ cs, ∃ i, item i = c := by
    intro c hc
    obtain ⟨i, hi⟩ := List.mem_iff_get.mp hc
    exact ⟨i.cast hLength.symm, hi⟩
  obtain ⟨x, hx, hNear⟩ := hRepairs (Finset.univ.filter fun i => P (item i))
    (fun i => offset (item i)) z
    (fun i hi => by
      rw [hShape]
      exact hz _ (hItem i) (Finset.mem_filter.mp hi).2)
    y δ hδ
    (fun i hi => by
      rw [hShape]
      exact hMiss _ (hItem i) (Finset.mem_filter.mp hi).2)
  refine ⟨x, fun c hc hP => ?_, fun c hc => ?_⟩
  · obtain ⟨i, rfl⟩ := hIndex c hc
    have hHolds := hx i (Finset.mem_filter.mpr ⟨Finset.mem_univ i, hP⟩)
    rwa [hShape] at hHolds
  · obtain ⟨i, rfl⟩ := hIndex c hc
    have hForm := hNear i
    rwa [hShape] at hForm

end Factor

end SoftSimplex
