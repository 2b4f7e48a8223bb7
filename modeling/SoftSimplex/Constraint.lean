import SoftSimplex.Expression
import SoftSimplex.Formula
import SoftSimplex.Strength

/-!
# Constraints

A constraint relates a linear expression to zero at some strength. It is known by its number: two
constraints with the same content are different constraints, and handles of one number are the same
constraint. The terms of each variable are merged and the strength is clipped; that is part of the
type.
-/

namespace SoftSimplex
set_option autoImplicit false

inductive Relation where
  | lessOrEqual
  | equal
  | greaterOrEqual
  deriving DecidableEq, Repr

namespace Relation

def render : Relation → String
  | .lessOrEqual => "<="
  | .equal => "=="
  | .greaterOrEqual => ">="

def name : Relation → String
  | .lessOrEqual => "LessOrEqual"
  | .equal => "Equal"
  | .greaterOrEqual => "GreaterOrEqual"

def all : List Relation := [.lessOrEqual, .equal, .greaterOrEqual]

def ofName? (text : String) : Option Relation := all.find? fun r => r.name == text

def ofText? (text : String) : Option Relation := all.find? fun r => r.render == text

end Relation

structure Constraint (α : Type) [Scalar α] where
  id : Nat
  expression : Expression α
  relation : Relation
  strength : Strength α
  normal : ∃ (e : Expression α) (w : Strength α), expression = e.reduced ∧ strength = w.clip

namespace Constraint

variable {α : Type} [Scalar α]

def make (id : Nat) (e : Expression α) (relation : Relation) (w : Strength α) : Constraint α :=
  ⟨id, e.reduced, relation, w.clip, e, w, rfl, rfl⟩

def between (id : Nat) (left : Expression α) (relation : Relation) (right : Expression α)
    (w : Strength α) : Constraint α :=
  make id (left.sub right) relation w

/-- The constraint that one operand stands in a relation to another. A number may not be the first. -/
def relate? (id : Nat) (x : Operand α) (relation : Relation) (y : Operand α) (w : Strength α) :
    Option (Constraint α) :=
  if x.isLinear then some (between id x.toExpression relation y.toExpression w) else none

def isRequired (c : Constraint α) : Bool := c.strength.isRequired

end Constraint

end SoftSimplex
