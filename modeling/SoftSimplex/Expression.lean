import SoftSimplex.Scalar
import SoftSimplex.Variable

/-!
# Linear expressions

A linear expression is a constant and a list of terms, in the order in which they were written; a
variable may occur in several terms. Subtraction is the addition of a negation, and negation is a
multiplication by minus one, term by term.
-/

namespace SoftSimplex
set_option autoImplicit false

structure Term (α : Type) where
  var : Variable
  coefficient : α

structure Expression (α : Type) where
  terms : List (Term α) := []
  constant : α

variable {α : Type} [Scalar α]

namespace Term

def ofVariable (v : Variable) : Term α := ⟨v, 1⟩

def scale (t : Term α) (k : α) : Term α := ⟨t.var, t.coefficient * k⟩

def neg (t : Term α) : Term α := t.scale (-1)

end Term

namespace Expression

def ofConstant (c : α) : Expression α := ⟨[], c⟩

def ofTerm (t : Term α) : Expression α := ⟨[t], 0⟩

def ofVariable (v : Variable) : Expression α := ofTerm (.ofVariable v)

def add (e f : Expression α) : Expression α := ⟨e.terms ++ f.terms, e.constant + f.constant⟩

def scale (e : Expression α) (k : α) : Expression α :=
  ⟨e.terms.map (·.scale k), e.constant * k⟩

def neg (e : Expression α) : Expression α := e.scale (-1)

def sub (e f : Expression α) : Expression α := e.add f.neg

/-- Adds a term to the first term of its variable, or behind all terms if there is none. -/
def mergeTerm (t : Term α) : List (Term α) → List (Term α)
  | [] => [t]
  | u :: rest =>
    if u.var = t.var then ⟨u.var, u.coefficient + t.coefficient⟩ :: rest
    else u :: mergeTerm t rest

/-- One term for each variable, in order of first occurrence. -/
def reduced (e : Expression α) : Expression α :=
  ⟨e.terms.foldl (fun merged t => mergeTerm t merged) [], e.constant⟩

end Expression

end SoftSimplex
