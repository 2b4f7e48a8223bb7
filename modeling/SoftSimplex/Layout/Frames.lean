import SoftSimplex.Scalar
import SoftSimplex.SolverError

/-!
# Frames

A range of sizes, from one size towards another in equal steps, gives one frame for each step. Both
ends belong to it when the last step meets the end.
-/

namespace SoftSimplex.Layout
set_option autoImplicit false

inductive LayoutError where
  | noColumns
  | spacingNotFinite
  | rangeNotFinite
  | wrongDirection
  | tooManyFrames
  | solver (cause : SolverError)
  deriving DecidableEq, Repr

def mostFrames : Nat := 1000000

def LayoutError.message : LayoutError → String
  | .noColumns => "--columns must be at least 1"
  | .spacingNotFinite => "--gap and --min-width must be finite numbers"
  | .rangeNotFinite => "--from, --to and --step must be finite numbers"
  | .wrongDirection => "--step must move from --from towards --to"
  | .tooManyFrames => "resizing would take more than " ++ toString mostFrames ++ " frames"
  | .solver cause => cause.message

structure FrameRange (α : Type) where
  first : α
  last : α
  step : α

namespace FrameRange

variable {α : Type} [Scalar α]

def isFinite (r : FrameRange α) : Bool :=
  Scalar.isFinite r.first && Scalar.isFinite r.last && Scalar.isFinite r.step

/-- Holds when the steps stay in place or lead away from the end. -/
def isAstray (r : FrameRange α) : Bool :=
  r.step == 0 || decide ((r.last - r.first) * r.step < 0)

def steps (r : FrameRange α) : α := (r.last - r.first) / r.step

def count (r : FrameRange α) : Except LayoutError Nat :=
  if !r.isFinite then .error .rangeNotFinite
  else if r.isAstray then .error .wrongDirection
  else if !Scalar.isFinite r.steps || decide (Scalar.ofNat mostFrames ≤ r.steps) then
    .error .tooManyFrames
  else .ok (Scalar.wholeUnits r.steps + 1)

/-- The size in a frame, counted from zero. -/
def size (r : FrameRange α) (frame : Nat) : α := r.first + r.step * Scalar.ofNat frame

def sizes (r : FrameRange α) : Except LayoutError (List α) :=
  r.count.map fun n => (List.range n).map r.size

end FrameRange

end SoftSimplex.Layout
