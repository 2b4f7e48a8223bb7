import SoftSimplex.Variable

/-!
# The log of possibly changed variables

Between two readings the log collects the variables whose value may have moved, each once, in the
order in which they were first marked. A reading closes the current generation and starts the next. The
log has two buffers that change places at every reading, so what a reader has been handed is not written
to any more.
-/

namespace SoftSimplex
set_option autoImplicit false

structure ChangeLog where
  /-- How many generations have been closed. -/
  generation : Nat := 0
  /-- The variables marked in the open generation, first mark first. -/
  recording : List Variable := []
  /-- The variables of the generation that was closed last. -/
  closed : List Variable := []

namespace ChangeLog

def mark (log : ChangeLog) (v : Variable) : ChangeLog :=
  if v ∈ log.recording then log else { log with recording := log.recording ++ [v] }

def markAll (log : ChangeLog) (vs : List Variable) : ChangeLog := vs.foldl mark log

def pending (log : ChangeLog) : Nat := log.recording.length

def swap (log : ChangeLog) : ChangeLog :=
  { log with recording := log.closed, closed := log.recording }

/-- The variables of the open generation, and the log with that generation closed. The buffer that comes
in to record the next generation has been emptied before. -/
def close (log : ChangeLog) : List Variable × ChangeLog :=
  let swapped := swap { log with closed := [] }
  (swapped.closed, { swapped with generation := swapped.generation + 1 })

theorem close_eq (log : ChangeLog) :
    log.close = (log.recording, ⟨log.generation + 1, [], log.recording⟩) := rfl

end ChangeLog

end SoftSimplex
