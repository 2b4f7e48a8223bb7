import SoftSimplex.Proofs.ExpressionValue
import SoftSimplex.Proofs.FirstOccurrences
import SoftSimplex.Satisfaction

/-!
# What formulas mean

Which operators are provided depends on the forms of their operands: a number may not stand on the left of
a sum, only a number can be a factor. A formula made of provided operators has an operand, the value of
that operand is what the formula says as arithmetic, and a constraint built from two formulas says that
their values stand in the relation.
-/

namespace SoftSimplex
set_option autoImplicit false

/-- The forms of operands. Which operators are provided is a matter of forms alone. -/
inductive Form where
  | number
  | var
  | term
  | expression
  deriving DecidableEq

namespace Form

def toTerm? : Form → Option Form
  | .var | .term => some .term
  | .number | .expression => none

def neg? : Form → Option Form
  | .var | .term => some .term
  | .expression => some .expression
  | .number => none

def mul? : Form → Form → Option Form
  | .var, .number | .number, .var | .term, .number => some .term
  | .expression, .number => some .expression
  | _, _ => none

/-- The form of a sum or a difference. -/
def sum? (left _right : Form) : Option Form := if left = .number then none else some .expression

end Form

namespace Operand

variable {α : Type}

def form : Operand α → Form
  | .number _ => .number
  | .var _ => .var
  | .term _ => .term
  | .expression _ => .expression

/-- The variables of an operand, one entry for each term. -/
def vars : Operand α → List Variable
  | .number _ => []
  | .var v => [v]
  | .term t => [t.var]
  | .expression e => e.terms.map Term.var

end Operand

namespace Formula

variable {α : Type}

/-- The form of a formula that is built with provided operators only. -/
def form? : Formula α → Option Form
  | .operand x => some x.form
  | .asTerm f => f.form?.bind Form.toTerm?
  | .asExpression f => f.form?.map fun _ => .expression
  | .neg f => f.form?.bind Form.neg?
  | .mul f g => do (← f.form?).mul? (← g.form?)
  | .add f g => do (← f.form?).sum? (← g.form?)
  | .sub f g => do (← f.form?).sum? (← g.form?)

/-- The variables of a formula, in the order in which they are written. -/
def vars : Formula α → List Variable
  | .operand x => x.vars
  | .asTerm f => f.vars
  | .asExpression f => f.vars
  | .neg f => f.vars
  | .mul f g => f.vars ++ g.vars
  | .add f g => f.vars ++ g.vars
  | .sub f g => f.vars ++ g.vars

end Formula

/-- Whether two values stand in the relation to each other. -/
def Relation.Relates (relation : Relation) (x y : Rat) : Prop :=
  match relation with
  | .lessOrEqual => x ≤ y
  | .equal => x = y
  | .greaterOrEqual => y ≤ x

theorem Relation.holds_sub_iff {relation : Relation} {x y : Rat} :
    relation.Holds (x - y) ↔ relation.Relates x y := by
  cases relation with
  | lessOrEqual => exact sub_nonpos
  | equal => exact sub_eq_zero
  | greaterOrEqual => exact sub_nonneg

namespace Operand

section Forms

variable {α : Type}

theorem isLinear_iff (x : Operand α) : x.isLinear = true ↔ x.form ≠ .number := by
  cases x <;> simp [isLinear, form]

theorem map_form_bind {op : Operand α → Option (Operand α)} {rule : Form → Option Form}
    (h : ∀ x, (op x).map form = rule x.form) (x? : Option (Operand α)) :
    (x?.bind op).map form = (x?.map form).bind rule := by
  cases x? with
  | none => rfl
  | some x => exact h x

theorem map_form_bind₂ {op : Operand α → Operand α → Option (Operand α)}
    {rule : Form → Form → Option Form} (h : ∀ x y, (op x y).map form = rule x.form y.form)
    (x? y? : Option (Operand α)) :
    (do op (← x?) (← y?)).map form =
      (do rule (← x?.map form) (← y?.map form)) := by
  cases x? with
  | none => rfl
  | some x => exact map_form_bind (h x) y?

end Forms

section Operators

variable {α : Type} [Scalar α] {x y z : Operand α}

theorem form_toTerm? (x : Operand α) : x.toTerm?.map form = x.form.toTerm? := by
  cases x <;> rfl

theorem form_neg? (x : Operand α) : x.neg?.map form = x.form.neg? := by
  cases x <;> rfl

theorem form_mul? (x y : Operand α) : (x.mul? y).map form = x.form.mul? y.form := by
  cases x <;> cases y <;> rfl

theorem form_add? (x y : Operand α) : (x.add? y).map form = x.form.sum? y.form := by
  cases x <;> rfl

theorem form_sub? (x y : Operand α) : (x.sub? y).map form = x.form.sum? y.form := by
  cases x <;> rfl

theorem vars_toExpression (x : Operand α) :
    x.toExpression.terms.map Term.var = x.vars := by
  cases x <;> rfl

theorem vars_scale (e : Expression α) (k : α) :
    (e.scale k).terms.map Term.var = e.terms.map Term.var := by
  rw [Expression.scale, List.map_map]
  rfl

theorem vars_toTerm? (h : x.toTerm? = some y) : y.vars = x.vars := by
  cases x with
  | number _ => cases h
  | var _ => cases h; rfl
  | term _ => cases h; rfl
  | expression _ => cases h

theorem vars_neg? (h : x.neg? = some y) : y.vars = x.vars := by
  cases x with
  | number _ => cases h
  | var _ => cases h; rfl
  | term _ => cases h; rfl
  | expression e => cases h; exact vars_scale e _

theorem vars_mul? (h : x.mul? y = some z) : z.vars = x.vars ++ y.vars := by
  revert h
  fun_cases mul? x y with
  | case1 v k => rintro ⟨⟩; rfl
  | case2 k v => rintro ⟨⟩; rfl
  | case3 t k => rintro ⟨⟩; rfl
  | case4 e k =>
    rintro ⟨⟩
    exact (vars_scale e k).trans (List.append_nil _).symm
  | case5 =>
    intro h
    cases h

theorem vars_add? (h : x.add? y = some z) : z.vars = x.vars ++ y.vars := by
  obtain ⟨-, hSum⟩ := Option.ite_none_right_eq_some.mp h
  rw [← Option.some.inj hSum]
  rw [vars, Expression.add, List.map_append, vars_toExpression, vars_toExpression]

theorem vars_sub? (h : x.sub? y = some z) : z.vars = x.vars ++ y.vars := by
  obtain ⟨-, hSum⟩ := Option.ite_none_right_eq_some.mp h
  rw [← Option.some.inj hSum]
  rw [vars, Expression.sub, Expression.add, Expression.neg, List.map_append, vars_scale,
    vars_toExpression, vars_toExpression]

end Operators

section Values

variable {x y z : Operand Rat} {a : Variable → Rat}

theorem value_toExpression (x : Operand Rat) (a : Variable → Rat) :
    x.toExpression.value a = x.value a := by
  cases x with
  | number _ => exact Expression.value_ofConstant
  | var _ => exact Expression.value_ofVariable
  | term _ => exact Expression.value_ofTerm
  | expression _ => rfl

theorem value_toTerm? (h : x.toTerm? = some y) : y.value a = x.value a := by
  cases x with
  | number _ => cases h
  | var v => cases h; exact one_mul (a v)
  | term _ => cases h; rfl
  | expression _ => cases h

theorem value_neg? (h : x.neg? = some y) : y.value a = -x.value a := by
  cases x with
  | number _ => cases h
  | var v => cases h; exact neg_one_mul (a v)
  | term t =>
    cases h
    simp only [value, Term.value, Term.neg, Term.scale]
    ring
  | expression _ => cases h; exact Expression.value_neg

theorem value_mul? (h : x.mul? y = some z) : z.value a = x.value a * y.value a := by
  revert h
  fun_cases mul? x y with
  | case1 v k => rintro ⟨⟩; exact mul_comm k (a v)
  | case2 k v => rintro ⟨⟩; rfl
  | case3 t k =>
    rintro ⟨⟩
    simp only [value, Term.value, Term.scale]
    ring
  | case4 e k => rintro ⟨⟩; exact Expression.value_scale
  | case5 =>
    intro h
    cases h

theorem value_add? (h : x.add? y = some z) : z.value a = x.value a + y.value a := by
  obtain ⟨-, hSum⟩ := Option.ite_none_right_eq_some.mp h
  rw [← Option.some.inj hSum]
  rw [value, Expression.value_add, value_toExpression, value_toExpression]

theorem value_sub? (h : x.sub? y = some z) : z.value a = x.value a - y.value a := by
  obtain ⟨-, hSum⟩ := Option.ite_none_right_eq_some.mp h
  rw [← Option.some.inj hSum]
  rw [value, Expression.value_sub, value_toExpression, value_toExpression]

end Values

end Operand

namespace Formula

section Forms

variable {α : Type} [Scalar α]

/-- The formulas that are built with provided operators only are those that have an operand. -/
theorem form_operand? (f : Formula α) : f.operand?.map Operand.form = f.form? := by
  induction f with
  | operand x => rfl
  | asTerm f ih =>
    rw [operand?, form?, ← ih]
    exact Operand.map_form_bind Operand.form_toTerm? _
  | asExpression f ih =>
    rw [operand?, form?, ← ih, Option.map_map, Option.map_map]
    rfl
  | neg f ih =>
    rw [operand?, form?, ← ih]
    exact Operand.map_form_bind Operand.form_neg? _
  | mul f g ihLeft ihRight =>
    rw [operand?, form?, ← ihLeft, ← ihRight]
    exact Operand.map_form_bind₂ Operand.form_mul? _ _
  | add f g ihLeft ihRight =>
    rw [operand?, form?, ← ihLeft, ← ihRight]
    exact Operand.map_form_bind₂ Operand.form_add? _ _
  | sub f g ihLeft ihRight =>
    rw [operand?, form?, ← ihLeft, ← ihRight]
    exact Operand.map_form_bind₂ Operand.form_sub? _ _

theorem exists_operand {f : Formula α} {form : Form} (h : f.form? = some form) :
    ∃ x, f.operand? = some x ∧ x.form = form :=
  Option.map_eq_some_iff.mp ((form_operand? f).trans h)

end Forms

/-- An operand says what a formula says: it has its value and its variables. -/
structure Says (f : Formula Rat) (x : Operand Rat) : Prop where
  value : ∀ a, x.value a = f.value a
  vars : x.vars = f.vars

theorem says_operand {f : Formula Rat} {x : Operand Rat} (h : f.operand? = some x) : f.Says x := by
  induction f generalizing x with
  | operand y =>
    obtain rfl := Option.some.inj h
    exact ⟨fun _ => rfl, rfl⟩
  | asTerm f ih =>
    obtain ⟨y, hy, hx⟩ := Option.bind_eq_some_iff.mp h
    have hSays := ih hy
    exact ⟨fun a => (Operand.value_toTerm? hx).trans (hSays.value a),
      (Operand.vars_toTerm? hx).trans hSays.vars⟩
  | asExpression f ih =>
    obtain ⟨y, hy, rfl⟩ := Option.map_eq_some_iff.mp h
    have hSays := ih hy
    exact ⟨fun a => (y.value_toExpression a).trans (hSays.value a),
      y.vars_toExpression.trans hSays.vars⟩
  | neg f ih =>
    obtain ⟨y, hy, hx⟩ := Option.bind_eq_some_iff.mp h
    have hSays := ih hy
    refine ⟨fun a => ?_, (Operand.vars_neg? hx).trans hSays.vars⟩
    rw [Operand.value_neg? hx, hSays.value, Formula.value]
  | mul f g ihLeft ihRight =>
    obtain ⟨y, hy, hRest⟩ := Option.bind_eq_some_iff.mp h
    obtain ⟨z, hz, hx⟩ := Option.bind_eq_some_iff.mp hRest
    have hLeft := ihLeft hy
    have hRight := ihRight hz
    refine ⟨fun a => ?_, ?_⟩
    · rw [Operand.value_mul? hx, hLeft.value, hRight.value, Formula.value]
    · rw [Operand.vars_mul? hx, hLeft.vars, hRight.vars, Formula.vars]
  | add f g ihLeft ihRight =>
    obtain ⟨y, hy, hRest⟩ := Option.bind_eq_some_iff.mp h
    obtain ⟨z, hz, hx⟩ := Option.bind_eq_some_iff.mp hRest
    have hLeft := ihLeft hy
    have hRight := ihRight hz
    refine ⟨fun a => ?_, ?_⟩
    · rw [Operand.value_add? hx, hLeft.value, hRight.value, Formula.value]
    · rw [Operand.vars_add? hx, hLeft.vars, hRight.vars, Formula.vars]
  | sub f g ihLeft ihRight =>
    obtain ⟨y, hy, hRest⟩ := Option.bind_eq_some_iff.mp h
    obtain ⟨z, hz, hx⟩ := Option.bind_eq_some_iff.mp hRest
    have hLeft := ihLeft hy
    have hRight := ihRight hz
    refine ⟨fun a => ?_, ?_⟩
    · rw [Operand.value_sub? hx, hLeft.value, hRight.value, Formula.value]
    · rw [Operand.vars_sub? hx, hLeft.vars, hRight.vars, Formula.vars]

end Formula

/-- A constraint says that two formulas stand in a relation, with one term for each of their variables in
the order in which these are first written. -/
structure Constraint.States (c : Constraint Rat) (lhs : Formula Rat) (relation : Relation)
    (rhs : Formula Rat) : Prop where
  related : c.relation = relation
  distinct : (c.expression.terms.map Term.var).Nodup
  vars : c.expression.terms.map Term.var = (lhs.vars ++ rhs.vars).eraseDups
  holds : ∀ a, c.relation.Holds (c.expression.value a) ↔
    relation.Relates (lhs.value a) (rhs.value a)

theorem Formula.Says.states_between {lhs rhs : Formula Rat} {x y : Operand Rat} (hx : lhs.Says x)
    (hy : rhs.Says y) (id : Nat) (relation : Relation) (w : Strength Rat) :
    (Constraint.between id x.toExpression relation y.toExpression w).States lhs relation rhs := by
  refine ⟨rfl, nodup_vars_reduced _, ?_, fun a => ?_⟩
  · rw [Constraint.between, Constraint.make, Expression.vars_reduced, Expression.sub,
      Expression.add, Expression.neg, List.map_append, Operand.vars_scale, x.vars_toExpression,
      y.vars_toExpression, hx.vars, hy.vars]
  · rw [Constraint.between, Constraint.make, Expression.value_reduced, Expression.value_sub,
      x.value_toExpression, y.value_toExpression, hx.value, hy.value, Relation.holds_sub_iff]

theorem operators_mean_arithmetic :
    (∀ (f : Formula Rat) (form : Form), f.form? = some form →
      ∃ x, f.operand? = some x ∧ x.form = form ∧ (∀ a, x.value a = f.value a) ∧
        ∀ a, x.toExpression.value a = f.value a) ∧
    ∀ (lhs rhs : Formula Rat) (form other : Form), lhs.form? = some form → form ≠ .number →
      rhs.form? = some other → ∀ (id : Nat) (relation : Relation) (w : Strength Rat),
        ∃ x y c, lhs.operand? = some x ∧ rhs.operand? = some y ∧
          Constraint.relate? id x relation y w = some c ∧ c.id = id ∧ c.strength = w.clip ∧
          c.States lhs relation rhs := by
  refine ⟨fun f form h => ?_, fun lhs rhs form other hLeft hLinear hRight id relation w => ?_⟩
  · obtain ⟨x, hOperand, hForm⟩ := Formula.exists_operand h
    have hSays := Formula.says_operand hOperand
    exact ⟨x, hOperand, hForm, hSays.value, fun a =>
      (x.value_toExpression a).trans (hSays.value a)⟩
  · obtain ⟨x, hx, rfl⟩ := Formula.exists_operand hLeft
    obtain ⟨y, hy, -⟩ := Formula.exists_operand hRight
    exact ⟨x, y, _, hx, hy, if_pos (x.isLinear_iff.mpr hLinear), rfl, rfl,
      (Formula.says_operand hx).states_between (Formula.says_operand hy) id relation w⟩

/-- `-(x * 2 + y) * 3 - 5`, a difference of two expressions. -/
def tripledSum : Formula Rat :=
  .sub (.mul (.neg (.add (.mul (.operand (.var ⟨0⟩)) (.operand (.number 2)))
    (.operand (.var ⟨1⟩)))) (.operand (.number 3))) (.asExpression (.operand (.number 5)))

/-- `y + 2 * x`, where the first operand is a term and the second one the product of a number. -/
def swappedSum : Formula Rat :=
  .add (.asTerm (.operand (.var ⟨1⟩))) (.mul (.operand (.number 2)) (.operand (.var ⟨0⟩)))

theorem operators_mean_arithmetic_of_tripledSum :
    tripledSum.form? = some .expression ∧ swappedSum.form? = some .expression ∧
      (∃ x, tripledSum.operand? = some x ∧ x.form = .expression ∧
        (∀ a, x.value a = tripledSum.value a) ∧ ∀ a, x.toExpression.value a = tripledSum.value a) ∧
      ∃ x y c, tripledSum.operand? = some x ∧ swappedSum.operand? = some y ∧
        Constraint.relate? 7 x .lessOrEqual y .strong = some c ∧ c.id = 7 ∧
        c.strength = Strength.strong.clip ∧ c.States tripledSum .lessOrEqual swappedSum :=
  ⟨rfl, rfl, operators_mean_arithmetic.1 tripledSum .expression rfl,
    operators_mean_arithmetic.2 tripledSum swappedSum .expression .expression rfl
      (by decide) rfl 7 .lessOrEqual .strong⟩

end SoftSimplex
