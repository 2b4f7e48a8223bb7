import SoftSimplex.Expression

/-!
# Formulas

A formula is what a caller writes: numbers, variables, terms and expressions joined by the
operators. Its operand keeps the simplest of these four forms that the operators give. A formula
that the operators do not allow, such as the product of two variables, has no operand.
-/

namespace SoftSimplex
set_option autoImplicit false

inductive Operand (α : Type) where
  | number (v : α)
  | var (v : Variable)
  | term (t : Term α)
  | expression (e : Expression α)

inductive Formula (α : Type) where
  | operand (x : Operand α)
  | asTerm (f : Formula α)
  | asExpression (f : Formula α)
  | neg (f : Formula α)
  | mul (f g : Formula α)
  | add (f g : Formula α)
  | sub (f g : Formula α)

variable {α : Type} [Scalar α]

namespace Operand

def toExpression : Operand α → Expression α
  | .number v => .ofConstant v
  | .var v => .ofVariable v
  | .term t => .ofTerm t
  | .expression e => e

def toTerm? : Operand α → Option (Operand α)
  | .var v => some (.term (.ofVariable v))
  | .term t => some (.term t)
  | _ => none

def neg? : Operand α → Option (Operand α)
  | .number _ => none
  | .var v => some (.term ⟨v, -1⟩)
  | .term t => some (.term t.neg)
  | .expression e => some (.expression e.neg)

def mul? : Operand α → Operand α → Option (Operand α)
  | .var v, .number k => some (.term ⟨v, k⟩)
  | .number k, .var v => some (.term ⟨v, k⟩)
  | .term t, .number k => some (.term (t.scale k))
  | .expression e, .number k => some (.expression (e.scale k))
  | _, _ => none

/-- Holds of the operands that may stand on the left of a sum, a difference or a relation. -/
def isLinear : Operand α → Bool
  | .number _ => false
  | _ => true

def add? (x y : Operand α) : Option (Operand α) :=
  if x.isLinear then some (.expression (x.toExpression.add y.toExpression)) else none

def sub? (x y : Operand α) : Option (Operand α) :=
  if x.isLinear then some (.expression (x.toExpression.sub y.toExpression)) else none

end Operand

namespace Formula

def operand? : Formula α → Option (Operand α)
  | .operand x => some x
  | .asTerm f => f.operand?.bind Operand.toTerm?
  | .asExpression f => f.operand?.map fun x => .expression x.toExpression
  | .neg f => f.operand?.bind Operand.neg?
  | .mul f g => do (← f.operand?).mul? (← g.operand?)
  | .add f g => do (← f.operand?).add? (← g.operand?)
  | .sub f g => do (← f.operand?).sub? (← g.operand?)

end Formula

end SoftSimplex
