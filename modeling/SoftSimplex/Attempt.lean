/-!
# Attempts

An operation on a state answers with a result and leaves a state behind, also when it fails: what a
failed operation has done so far stays visible to the operations after it.
-/

namespace SoftSimplex
set_option autoImplicit false

structure Attempt (ε β σ : Type) where
  result : Except ε β
  state : σ

namespace Attempt

variable {ε β σ : Type}

def done (v : β) (s : σ) : Attempt ε β σ := ⟨.ok v, s⟩

def failed (e : ε) (s : σ) : Attempt ε β σ := ⟨.error e, s⟩

end Attempt

end SoftSimplex
