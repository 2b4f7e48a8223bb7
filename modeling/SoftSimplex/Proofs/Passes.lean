import SoftSimplex.Proofs.Feasibility
import SoftSimplex.Proofs.TableauTrace

/-!
# What the passes keep

Each pass is a run of pivots, so what one pivot keeps a whole pass keeps: solved form, the meaning
of the rows and objectives, and the zero of the dummies. The primal pass adds feasibility throughout
and ends dual feasible; the dual pass adds dual feasibility throughout and, with every violated row
in the queue, ends feasible.
-/

namespace SoftSimplex.Tableau
set_option autoImplicit false

section Runs

variable {α : Type} [Scalar α] {P : Tableau α → Prop}

theorem entering?_of_optimizeWithin {goal : Goal} {limit budget : Nat} {t u : Tableau α}
    (h : optimizeWithin goal limit budget t = ⟨.ok (), u⟩) : u.entering? goal = none := by
  induction budget generalizing t with
  | zero =>
    rw [optimizeWithin] at h
    split at h
    · rename_i hNone
      cases h
      exact hNone
    · cases h
  | succ left ih =>
    rw [optimizeWithin] at h
    split at h
    · rename_i hNone
      cases h
      exact hNone
    · dsimp only at h
      split at h
      · cases h
      · exact ih h

theorem dualOptimizeWithin_induction {limit : Nat}
    (hStep : ∀ t leaving row rest entering, P t →
      nextViolated? t.rows t.infeasible = some (leaving, row, rest) →
      ({ t with infeasible := rest } : Tableau α).dualEntering? row = some entering →
      P (({ t with infeasible := rest } : Tableau α).pivot leaving row entering))
    {budget : Nat} {t u : Tableau α} (h : P t)
    (hOk : dualOptimizeWithin limit budget t = ⟨.ok (), u⟩) :
    ∃ v, P v ∧ nextViolated? v.rows v.infeasible = none ∧ u = { v with infeasible := [] } := by
  induction budget generalizing t with
  | zero =>
    rw [dualOptimizeWithin] at hOk
    split at hOk
    · rename_i hNone
      cases hOk
      exact ⟨t, h, hNone, rfl⟩
    · dsimp only at hOk
      split at hOk <;> cases hOk
  | succ left ih =>
    rw [dualOptimizeWithin] at hOk
    split at hOk
    · rename_i hNone
      cases hOk
      exact ⟨t, h, hNone, rfl⟩
    · rename_i leaving row rest hNext
      dsimp only at hOk
      split at hOk
      · cases hOk
      · rename_i entering hEntering
        exact ih (hStep t leaving row rest entering h hNext hEntering) hOk

/-- A dual pass that breaks down meets the limit on its pivots, or a violated row has no column that
may enter. -/
theorem dualOptimizeWithin_breakdown {limit : Nat} {cause : Breakdown}
    (hStep : ∀ t leaving row rest entering, P t →
      nextViolated? t.rows t.infeasible = some (leaving, row, rest) →
      ({ t with infeasible := rest } : Tableau α).dualEntering? row = some entering →
      P (({ t with infeasible := rest } : Tableau α).pivot leaving row entering))
    {budget : Nat} {t : Tableau α} (h : P t)
    (hBroken : (dualOptimizeWithin limit budget t).result = .error cause) :
    cause = .iterationLimitExceeded limit ∨ ∃ v leaving row rest, P v ∧
      nextViolated? v.rows v.infeasible = some (leaving, row, rest) ∧
        ({ v with infeasible := rest } : Tableau α).dualEntering? row = none := by
  induction budget generalizing t with
  | zero =>
    rw [dualOptimizeWithin] at hBroken
    split at hBroken
    · cases hBroken
    · rename_i leaving row rest hNext
      dsimp only at hBroken
      split at hBroken
      · rename_i hNone
        exact .inr ⟨t, leaving, row, rest, h, hNext, hNone⟩
      · exact .inl (Except.error.inj hBroken).symm
  | succ left ih =>
    rw [dualOptimizeWithin] at hBroken
    split at hBroken
    · cases hBroken
    · rename_i leaving row rest hNext
      dsimp only at hBroken
      split at hBroken
      · rename_i hNone
        exact .inr ⟨t, leaving, row, rest, h, hNext, hNone⟩
      · rename_i entering hEntering
        exact ih (hStep t leaving row rest entering h hNext hEntering) hBroken

end Runs

theorem needsRepair_iff {row : Row Rat} : needsRepair row = true ↔ row.constant < 0 := by
  simp only [needsRepair, Scalar.negligible, Bool.and_eq_true, decide_eq_true_eq,
    Bool.not_eq_true', beq_eq_false_iff_ne]
  exact and_iff_left_of_imp fun h => h.ne

/-- Where every violated row is in the queue and nothing of the queue needs repair, no row is violated. -/
theorem Queued.feasible {t : Tableau Rat} (h : t.Queued)
    (hNone : nextViolated? t.rows t.infeasible = none) : t.Feasible := by
  intro e he hKind
  by_contra hBelow
  obtain ⟨s, hs, hId⟩ := h e he hKind (not_le.mp hBelow)
  have hGet : t.rows.get? s = some e.2 :=
    (SymbolMap.get?_congr t.rows hId).trans (SymbolMap.get?_of_mem he)
  have hRepair := nextViolated?_eq_none hNone hs hGet
  rw [needsRepair_iff.mpr (not_le.mp hBelow)] at hRepair
  cases hRepair

/-- What the pivots of a pass keep, measured against the tableau that it starts from. -/
structure Kept (issued : Set Symbol) (t u : Tableau Rat) : Prop where
  regular : u.Regular issued
  orderly : u.Orderly issued
  meaning : t.SameMeaning u
  pinned : t.Pinned → u.Pinned

/-- What a successful pass leaves behind. -/
structure Settled (issued : Set Symbol) (t u : Tableau Rat) : Prop extends Kept issued t u where
  feasible : u.Feasible
  dualFeasible : u.DualFeasible
  queue : u.infeasible = []
  artificial : u.artificial.isSome = t.artificial.isSome

variable {issued : Set Symbol} {t u : Tableau Rat} {row : Row Rat} {leaving entering : Symbol}
  (hDistinct : Set.InjOn Symbol.id issued)

theorem Kept.refl (h : t.Regular issued) (hOrderly : t.Orderly issued) : Kept issued t t :=
  ⟨h, hOrderly, .refl t, id⟩

include hDistinct in
/-- What the dual pass takes off the queue to repair it. -/
theorem Solved.violated (h : t.Solved issued) (hQueue : ∀ s ∈ t.infeasible, s ∈ issued)
    {rest : List Symbol} (hNext : nextViolated? t.rows t.infeasible = some (leaving, row, rest)) :
    (leaving, row) ∈ t.rows.entries ∧ row.constant < 0 := by
  obtain ⟨hMem, _, hGet, hRepair⟩ := nextViolated?_eq_some hNext
  exact ⟨h.mem_of_get? hDistinct (hQueue leaving hMem) hGet, needsRepair_iff.mp hRepair⟩

include hDistinct in
theorem QueuesRestricted.violated (hQueue : t.QueuesRestricted issued) (h : t.Solved issued)
    {rest : List Symbol} (hNext : nextViolated? t.rows t.infeasible = some (leaving, row, rest)) :
    (leaving, row) ∈ t.rows.entries ∧ leaving.isExternal = false ∧ row.constant < 0 := by
  obtain ⟨hRow, hBelow⟩ := h.violated hDistinct (fun s hs => (hQueue s hs).1) hNext
  obtain ⟨hMem, _⟩ := nextViolated?_eq_some hNext
  exact ⟨hRow, (hQueue leaving hMem).2 (SymbolMap.mem_keys_of_mem hRow), hBelow⟩

include hDistinct in
theorem Kept.pivot (h : Kept issued t u) (hPivot : u.Exchangeable leaving row entering) :
    Kept issued t (u.pivot leaving row entering) where
  regular := h.regular.pivot hPivot
  orderly := h.orderly.pivot h.regular.solved
  meaning := h.meaning.trans (h.regular.sameMeaning_pivot hPivot)
  pinned hp := (h.pinned hp).pivot h.regular.solved hPivot hDistinct

theorem Kept.requeue (h : Kept issued t u) {rest : List Symbol}
    (hRest : ∀ s ∈ rest, s ∈ u.infeasible) : Kept issued t { u with infeasible := rest } where
  regular := h.regular.mono rfl rfl fun _ hr => hr
  orderly s hs := h.orderly s (hRest s hs)
  meaning := h.meaning.trans (.requeue u rest)
  pinned hp := (h.pinned hp).mono rfl

theorem artificial_pivot : (u.pivot leaving row entering).artificial.isSome = u.artificial.isSome := by
  rw [show (u.pivot leaving row entering).artificial = _ from
    (artificial_touch _ _).trans (artificial_touch _ _)]
  exact Option.isSome_map

theorem artificial_eq_none (hSame : u.artificial.isSome = t.artificial.isSome)
    (hNone : t.artificial = none) : u.artificial = none := by
  rw [hNone, Option.isSome_none] at hSame
  exact Option.isNone_iff_eq_none.mp (Option.isSome_eq_false_iff.mp hSame)

include hDistinct in
theorem optimize_keeps (goal : Goal) (limit : Nat) (h : t.Regular issued)
    (hOrderly : t.Orderly issued) (hFeasible : t.Feasible) :
    Kept issued t (t.optimize goal limit).state ∧ (t.optimize goal limit).state.Feasible ∧
      (t.optimize goal limit).state.artificial.isSome = t.artificial.isSome := by
  refine optimizeWithin_induction
    (P := fun u => Kept issued t u ∧ u.Feasible ∧ u.artificial.isSome = t.artificial.isSome)
    ?_ limit ⟨.refl h hOrderly, hFeasible, rfl⟩
  rintro u entering leaving row ⟨hKept, hFeasible, hArtificial⟩ hEntering hLeaving
  exact ⟨hKept.pivot hDistinct (hKept.regular.solved.exchangeable_primal hDistinct hEntering hLeaving),
    hKept.regular.solved.feasible_primal hDistinct hEntering hLeaving hFeasible,
    artificial_pivot.trans hArtificial⟩

theorem nonneg_of_enteringFor? {r : Row Rat} (h : enteringFor? r = none) {e : Symbol × Rat}
    (he : e ∈ r.cells.entries) (hKind : e.1.isDummy = false) : 0 ≤ e.2 := by
  rw [enteringFor?, Option.map_eq_none_iff, List.find?_eq_none] at h
  simpa [hKind] using h e he

theorem dualFeasible_of_optimize {limit : Nat} (h : t.optimize .primary limit = ⟨.ok (), u⟩) :
    u.DualFeasible :=
  fun _ he hKind => nonneg_of_enteringFor? (entering?_of_optimizeWithin h) he hKind

include hDistinct in
/-- One step of the dual pass: an entry of the queue leaves, and every row that is then violated is
in the queue. -/
theorem Kept.dual_step {rest : List Symbol} (h : Kept issued t u) (hDual : u.DualFeasible)
    (hNext : nextViolated? u.rows u.infeasible = some (leaving, row, rest))
    (hEntering : ({ u with infeasible := rest } : Tableau Rat).dualEntering? row = some entering) :
    Kept issued t (({ u with infeasible := rest } : Tableau Rat).pivot leaving row entering) ∧
      (({ u with infeasible := rest } : Tableau Rat).pivot leaving row entering).DualFeasible ∧
      (({ u with infeasible := rest } : Tableau Rat).pivot leaving row entering).Queued := by
  obtain ⟨hRow, hRestricted, hBelow⟩ :=
    h.orderly.queuesRestricted.violated hDistinct h.regular.solved hNext
  have hPopped := h.requeue (nextViolated?_eq_some hNext).2.1
  have hPivot := exchangeable_dual (t := { u with infeasible := rest }) hRow hEntering hRestricted
  have hNonneg := hPopped.regular.solved.entering_nonneg hRow hEntering hBelow
  exact ⟨hPopped.pivot hDistinct hPivot,
    hPopped.regular.solved.dualFeasible_dual hDistinct hRow hEntering hDual,
    hPopped.regular.solved.queued_pivot hPivot.toCrossing hNonneg⟩

include hDistinct in
theorem dualOptimize_settles {limit : Nat} (h : t.Regular issued) (hOrderly : t.Orderly issued)
    (hDual : t.DualFeasible) (hQueued : t.Queued) (hOk : t.dualOptimize limit = ⟨.ok (), u⟩) :
    Settled issued t u := by
  have hRun := dualOptimizeWithin_induction
    (P := fun v => Kept issued t v ∧ v.DualFeasible ∧ v.Queued ∧
      v.artificial.isSome = t.artificial.isSome)
    (by
      rintro v leaving row rest entering ⟨hKept, hDual, _, hArtificial⟩ hNext hEntering
      obtain ⟨hKept, hDual, hQueued⟩ := hKept.dual_step hDistinct hDual hNext hEntering
      exact ⟨hKept, hDual, hQueued, artificial_pivot.trans hArtificial⟩)
    ⟨.refl h hOrderly, hDual, hQueued, rfl⟩ hOk
  obtain ⟨v, ⟨hKept, hDual, hQueued, hArtificial⟩, hNone, rfl⟩ := hRun
  have hNothing : ∀ s ∈ ([] : List Symbol), s ∈ v.infeasible := by simp
  exact ⟨hKept.requeue hNothing, hQueued.feasible hNone, hDual, rfl, hArtificial⟩

include hDistinct in
/-- Settling a feasible tableau keeps what it says and ends at an optimum. -/
theorem settle_settles {limit : Nat} (h : t.Regular issued) (hOrderly : t.Orderly issued)
    (hFeasible : t.Feasible) (hOk : t.settle limit = ⟨.ok (), u⟩) : Settled issued t u := by
  rw [settle] at hOk
  obtain ⟨hKept, hFeasible, hArtificial⟩ :=
    optimize_keeps hDistinct .primary limit h hOrderly hFeasible
  split at hOk
  · rename_i v hOptimize
    rw [hOptimize] at hKept hFeasible hArtificial
    have hDual := dualOptimize_settles hDistinct hKept.regular hKept.orderly
      (dualFeasible_of_optimize hOptimize) hFeasible.queued hOk
    exact ⟨⟨hDual.regular, hDual.orderly, hKept.meaning.trans hDual.meaning,
      fun hp => hDual.pinned (hKept.pinned hp)⟩, hDual.feasible, hDual.dualFeasible, hDual.queue,
      hDual.artificial.trans hArtificial⟩
  · rename_i hBroken
    rw [hOk] at hBroken
    exact absurd rfl (hBroken () u)

end SoftSimplex.Tableau
