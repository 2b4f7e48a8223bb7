/-!
# Variables

A variable is an unknown that the solver gives a value to. It is known by its number alone.
-/

namespace SoftSimplex
set_option autoImplicit false

structure Variable where
  id : Nat
  deriving DecidableEq, Repr

end SoftSimplex
