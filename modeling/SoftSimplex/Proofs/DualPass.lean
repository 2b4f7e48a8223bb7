import SoftSimplex.Proofs.PrimalTermination

/-!
# What the dual pass repairs

The dual pass takes the latest entry off its queue, and the queue may name rows that have left the
basis, rows that are not below zero any more, and a row more than once. What carries the argument is
that every violated row is in the queue at every moment, though a pivot breaks rows as it repairs one,
and that the least ratio among the positive cells keeps every reduced cost at zero or above. So a pass
that comes to its end has repaired every row.

A row without a column that may enter cannot be repaired by any admissible assignment, provided that
the row is restricted. The row of a caller's variable may be below zero in a solution, and a queue that
names one makes the pass give up on rows that have solutions.
-/

namespace SoftSimplex.Tableau
set_option autoImplicit false

/-- What a dual pass starts from and every step of it keeps. The queue may name any row. -/
structure Repairable (issued : Set Symbol) (t : Tableau Rat) : Prop where
  solved : t.Solved issued
  valid : ∀ s ∈ t.infeasible, s ∈ issued
  queued : t.Queued
  dualFeasible : t.DualFeasible

variable {issued : Set Symbol} {t u : Tableau Rat} {row : Row Rat} {leaving entering : Symbol}
  {rest : List Symbol}

theorem Repairable.requeue (h : t.Repairable issued) (hRest : ∀ s ∈ rest, s ∈ t.infeasible) :
    ({ t with infeasible := rest } : Tableau Rat).Solved issued ∧ ∀ s ∈ rest, s ∈ issued :=
  ⟨h.solved.mono rfl rfl fun _ hr => hr, fun s hs => h.valid s (hRest s hs)⟩

section Passes

variable (hDistinct : Set.InjOn Symbol.id issued)
include hDistinct

/-- One step of the pass, measured against the tableau that the pass starts from. -/
theorem Repairable.step (hKept : u.Repairable issued ∧ t.SameMeaning u)
    (hNext : nextViolated? u.rows u.infeasible = some (leaving, row, rest))
    (hEntering : ({ u with infeasible := rest } : Tableau Rat).dualEntering? row = some entering) :
    (({ u with infeasible := rest } : Tableau Rat).pivot leaving row entering).Repairable issued ∧
      t.SameMeaning (({ u with infeasible := rest } : Tableau Rat).pivot leaving row entering) := by
  obtain ⟨h, hSame⟩ := hKept
  obtain ⟨hRow, hBelow⟩ := h.solved.violated hDistinct h.valid hNext
  obtain ⟨hPopped, hValid⟩ := h.requeue (nextViolated?_eq_some hNext).2.1
  have hPivot := crossing_dual (t := { u with infeasible := rest }) hRow hEntering
  obtain ⟨_, hPositive, _⟩ := exists_of_dualEntering? hEntering
  have hStep := hPopped.sameMeaning_pivot hPivot hPositive.ne'
  refine ⟨⟨?_, ?_, ?_, ?_⟩, (hSame.trans (.requeue u rest)).trans hStep⟩
  · exact hPopped.pivot hPivot.row_mem hPivot.entering_mem
  · exact fun s hs => (hPopped.mem_infeasible_pivot hs).elim And.left (hValid s)
  · exact hPopped.queued_pivot hPivot (hPopped.entering_nonneg hRow hEntering hBelow)
  · exact hPopped.dualFeasible_dual hDistinct hRow hEntering h.dualFeasible

/-- A pass that succeeds empties its queue and repairs every row, and neither the solutions nor the signs
of the reduced costs change. If the queue names no row of a caller's variable, a pass finds no column
that may enter only where no admissible assignment solves the rows. -/
theorem dualOptimize_repairs (h : t.Repairable issued) (hSeparate : t.RowsSeparate) (limit : Nat) :
    (∀ u, t.dualOptimize limit = ⟨.ok (), u⟩ →
        u.infeasible = [] ∧ u.Feasible ∧ u.DualFeasible ∧ ∀ a, u.Satisfies a ↔ t.Satisfies a) ∧
      ((∀ s ∈ t.infeasible, s ∈ t.rows.keys → s.isExternal = false) →
        (t.dualOptimize limit).result = .error .dualOptimizeFailed →
          ∀ a, Admissible issued a → ¬ t.Satisfies a) := by
  constructor
  · intro u hOk
    have hStart : t.Repairable issued ∧ t.SameMeaning t := ⟨h, .refl t⟩
    obtain ⟨v, ⟨hKept, hSame⟩, hNone, rfl⟩ := dualOptimizeWithin_induction
      (fun _ _ _ _ _ => Repairable.step hDistinct) hStart hOk
    exact ⟨rfl, hKept.queued.feasible hNone, hKept.dualFeasible, hSame.rows⟩
  · intro hRestricted hFailed a ha hSat
    have hMendable : t.Mendable issued :=
      ⟨h.solved, hSeparate, fun s hs => ⟨h.valid s hs, hRestricted s hs⟩⟩
    rcases hMendable.dualOptimizeWithin_breakdown hDistinct hFailed with hLimit | hNot
    · cases hLimit
    · exact hNot ⟨a, hSat, ha⟩

end Passes

instance decidableRepairable (t : Tableau Rat) : Decidable (t.Repairable {s | s ∈ t.symbols}) :=
  decidable_of_iff
    ((∀ b ∈ t.rows.keys, t.AllRows fun r => r.AllColumns fun c => c.id ≠ b.id) ∧
      (∀ s ∈ t.infeasible, s ∈ t.symbols) ∧
      (∀ e ∈ t.rows.entries, e.1.isExternal = false → e.2.constant < 0 →
        ∃ s ∈ t.infeasible, s.id = e.1.id) ∧
      ∀ e ∈ t.objective.cells.entries, e.1.isDummy = false → 0 ≤ e.2)
    ⟨fun h => ⟨solved_over_symbols h.1, h.2.1, h.2.2.1, h.2.2.2⟩,
      fun h => ⟨h.solved.nonbasic, h.valid, h.queued, h.dualFeasible⟩⟩

instance decidableRowsSeparate (t : Tableau Rat) : Decidable t.RowsSeparate :=
  inferInstanceAs (Decidable (∀ e ∈ t.rows.entries, e.1.isExternal = false →
    e.2.AllColumns fun c => c.isExternal = false))

/-- A tableau whose first pivot repairs one row and breaks the other. Its queue starts with an entry that
is not basic and names the violated row twice, with a row that is not violated in between. -/
def brokenCorner : Tableau Rat :=
  ((({ objective := (slackRow 0 [2, 1]).addSymbol ⟨.dummy, 3⟩ (-1)
       infeasible := [⟨.slack, 2⟩, ⟨.slack, 4⟩, ⟨.error, 5⟩, ⟨.slack, 4⟩] } :
    Tableau Rat).insertRow ⟨.slack, 4⟩ ((slackRow (-2) [1, 1]).addSymbol ⟨.dummy, 3⟩ 1)).insertRow
      ⟨.error, 5⟩ (slackRow 1 [0, -1])).insertRow ⟨.external, 6⟩ (slackRow 3 [1, -1])

/-- A tableau whose violated row only a dummy could raise. -/
def stuckCorner : Tableau Rat :=
  ({ objective := slackRow 0 [2], infeasible := [⟨.slack, 4⟩] } : Tableau Rat).insertRow ⟨.slack, 4⟩
    ((slackRow (-2) [-1]).addSymbol ⟨.dummy, 3⟩ 1)

theorem dualOptimize_repairs_brokenCorner :
    (∃ u, brokenCorner.dualOptimize 2 = ⟨.ok (), u⟩ ∧ u.infeasible = [] ∧ u.Feasible ∧
        u.DualFeasible ∧ (∀ a, u.Satisfies a ↔ brokenCorner.Satisfies a) ∧
        u.rows.keys = [⟨.slack, 1⟩, ⟨.slack, 2⟩, ⟨.external, 6⟩]) ∧
      (stuckCorner.dualOptimize 2).result = .error .dualOptimizeFailed ∧
      ∀ a, Admissible {s | s ∈ stuckCorner.symbols} a → ¬ stuckCorner.Satisfies a := by
  have hBroken : brokenCorner.Repairable {s | s ∈ brokenCorner.symbols} := by
    decide +kernel
  have hStuck : stuckCorner.Repairable {s | s ∈ stuckCorner.symbols} := by
    decide +kernel
  have hDistinct : ∀ s ∈ brokenCorner.symbols, ∀ u ∈ brokenCorner.symbols, s.id = u.id → s = u := by
    decide +kernel
  have hStuckDistinct : ∀ s ∈ stuckCorner.symbols, ∀ u ∈ stuckCorner.symbols,
      s.id = u.id → s = u := by
    decide +kernel
  have hOk : (brokenCorner.dualOptimize 2).result = .ok () := by
    decide +kernel
  have hEnd : brokenCorner.dualOptimize 2 = ⟨.ok (), (brokenCorner.dualOptimize 2).state⟩ := by
    rw [← hOk]
  have hFailed : (stuckCorner.dualOptimize 2).result = .error .dualOptimizeFailed := by
    decide +kernel
  have hRestricted : ∀ s ∈ stuckCorner.infeasible, s ∈ stuckCorner.rows.keys →
      s.isExternal = false := by
    decide +kernel
  have hRepairs := (dualOptimize_repairs (fun s hs u hu => hDistinct s hs u hu) hBroken
    (by decide +kernel) 2).1 _ hEnd
  obtain ⟨hEmpty, hFeasible, hDual, hSame⟩ := hRepairs
  exact ⟨⟨_, hEnd, hEmpty, hFeasible, hDual, hSame, by decide +kernel⟩, hFailed,
    (dualOptimize_repairs (fun s hs u hu => hStuckDistinct s hs u hu) hStuck (by decide +kernel) 2).2
      hRestricted hFailed⟩

/-- A tableau whose queue names the row of a caller's variable below the violated row. Raising column 1
repairs the violated row and takes the caller's variable below zero, where nothing can enter for it. -/
def callerCorner : Tableau Rat :=
  (({ objective := slackRow 0 [1], infeasible := [⟨.slack, 4⟩, ⟨.external, 6⟩] } :
    Tableau Rat).insertRow ⟨.slack, 4⟩ (slackRow (-2) [1])).insertRow ⟨.external, 6⟩ (slackRow 1 [-1])

/-- The solution of `callerCorner` with column 1 at two. -/
def callerSolution : Nat → Rat
  | 1 => 2
  | 6 => -1
  | _ => 0

/-- With the row of a caller's variable in the queue, a pass gives up on rows that an admissible assignment
solves. -/
theorem not_forall_dualOptimizeFailed_unsolvable :
    ¬ ∀ (issued : Set Symbol) (t : Tableau Rat) (limit : Nat), Set.InjOn Symbol.id issued →
      t.Repairable issued → t.RowsSeparate →
      (t.dualOptimize limit).result = .error .dualOptimizeFailed →
        ∀ a, Admissible issued a → ¬ t.Satisfies a := by
  intro hAll
  have hRepairable : callerCorner.Repairable {s | s ∈ callerCorner.symbols} := by
    decide +kernel
  have hDistinct : ∀ s ∈ callerCorner.symbols, ∀ u ∈ callerCorner.symbols, s.id = u.id → s = u := by
    decide +kernel
  have hFailed : (callerCorner.dualOptimize 2).result = .error .dualOptimizeFailed := by
    decide +kernel
  have hAdmissible : ∀ s ∈ callerCorner.symbols,
      (s.isExternal = false → 0 ≤ callerSolution s.id) ∧ (s.isDummy = true → callerSolution s.id = 0) := by
    decide +kernel
  have hSolves : ∀ e ∈ callerCorner.rows.entries, callerSolution e.1.id = e.2.value callerSolution := by
    decide +kernel
  exact hAll _ callerCorner 2 (fun s hs u hu => hDistinct s hs u hu) hRepairable (by decide +kernel)
    hFailed callerSolution hAdmissible hSolves

end SoftSimplex.Tableau
