import SoftSimplex.Formula
import SoftSimplex.Row

/-!
# Values under an assignment

Expressions have values under an assignment of the variables, rows under an assignment of the column
numbers. The value of a formula is what it says as arithmetic, whatever operand it has.
-/

namespace SoftSimplex
set_option autoImplicit false

variable {α : Type} [Scalar α]

def Term.value (a : Variable → α) (t : Term α) : α := t.coefficient * a t.var

def Expression.value (a : Variable → α) (e : Expression α) : α :=
  e.constant + (e.terms.map (Term.value a)).sum

def Operand.value (a : Variable → α) : Operand α → α
  | .number x => x
  | .var v => a v
  | .term t => t.value a
  | .expression e => e.value a

def Formula.value (a : Variable → α) : Formula α → α
  | .operand x => x.value a
  | .asTerm f => f.value a
  | .asExpression f => f.value a
  | .neg f => -f.value a
  | .mul f g => f.value a * g.value a
  | .add f g => f.value a + g.value a
  | .sub f g => f.value a - g.value a

def Row.value (a : Nat → α) (r : Row α) : α :=
  r.constant + (r.cells.entries.map fun e => e.2 * a e.1.id).sum

end SoftSimplex
