import SoftSimplex.Proofs.KeptRows
import SoftSimplex.Proofs.PhaseOnePass

/-!
# Runs of pivots

Every pass is a run of pivots, and each pivot has its reason: in a primal pass the entering column
lowers the objective, in a dual pass the leaving row is below zero. A property that lasts under such
pivots holds when the pass is over. A phase-one pass ends with the fresh symbol's retirement, which may
take one pivot more.
-/

namespace SoftSimplex.Tableau
set_option autoImplicit false

/-- The reason for a pivot of a pass. -/
inductive Prompted (goal : Goal) (t : Tableau Rat) (row : Row Rat) (entering : Symbol) : Prop where
  | falling {r : Row Rat} (objective : t.objectiveFor? goal = some r)
      (negative : r.coefficient entering < 0)
  | violated (below : row.constant < 0)

/-- A property that the pivots of a pass keep, and in which the queue and the notes have no part. -/
structure Lasting (issued : Set Symbol) (goal : Goal) (P : Tableau Rat → Prop) : Prop where
  pivot : ∀ t leaving row entering, t.Regular issued → P t → t.Exchangeable leaving row entering →
    t.Prompted goal row entering → P (t.pivot leaving row entering)
  congr : ∀ t u : Tableau Rat, u.rows = t.rows → u.objective = t.objective →
    u.artificial = t.artificial → P t → P u

/-- How the fresh symbol of a phase-one pass leaves the tableau. -/
inductive Retired (t : Tableau Rat) (fresh : Symbol) : Tableau Rat → Prop where
  | struck : Retired t fresh (t.strike fresh)
  | erased (basic : fresh ∈ t.rows.keys) : Retired t fresh (t.eraseRow fresh)
  | exchanged {row : Row Rat} {entering : Symbol} (pivot : t.Exchangeable fresh row entering) :
      Retired t fresh ((t.pivot fresh row entering).strike fresh)

variable {issued : Set Symbol} {t u : Tableau Rat} {row : Row Rat} {fresh : Symbol} {goal : Goal}
  {P : Tableau Rat → Prop} {limit : Nat}

section Passes

variable (hLasting : Lasting issued goal P) (hDistinct : Set.InjOn Symbol.id issued)
  (h : t.Regular issued) (hOrderly : t.Orderly issued) (hP : P t)
include hLasting hDistinct h hOrderly hP

theorem Lasting.optimize (limit : Nat) : (t.optimize goal limit).state.Regular issued ∧
    (t.optimize goal limit).state.Orderly issued ∧ P (t.optimize goal limit).state := by
  refine optimizeWithin_induction (P := fun v => v.Regular issued ∧ v.Orderly issued ∧ P v) ?_ limit
    ⟨h, hOrderly, hP⟩
  rintro v entering leaving row ⟨hRegular, hOrderly, hP⟩ hEntering hLeaving
  have hPivot := hRegular.solved.exchangeable_primal hDistinct hEntering hLeaving
  obtain ⟨r, hr, _⟩ := exists_of_entering? hEntering
  have hNegative := coefficient_neg_of_entering? hEntering hr
  exact ⟨hRegular.pivot hPivot, hOrderly.pivot hRegular.solved,
    hLasting.pivot v leaving row entering hRegular hP hPivot (.falling hr hNegative)⟩

theorem Lasting.dualOptimize (hOk : t.dualOptimize limit = ⟨.ok (), u⟩) : P u := by
  have hStep : ∀ v leaving row rest entering, v.Regular issued ∧ v.Orderly issued ∧ P v →
      nextViolated? v.rows v.infeasible = some (leaving, row, rest) →
      ({ v with infeasible := rest } : Tableau Rat).dualEntering? row = some entering →
      (({ v with infeasible := rest } : Tableau Rat).pivot leaving row entering).Regular issued ∧
        (({ v with infeasible := rest } : Tableau Rat).pivot leaving row entering).Orderly issued ∧
          P (({ v with infeasible := rest } : Tableau Rat).pivot leaving row entering) := by
    rintro v leaving row rest entering ⟨hRegular, hOrderly, hP⟩ hNext hEntering
    obtain ⟨hMem, hRest, hGet, hRepair⟩ := nextViolated?_eq_some hNext
    obtain ⟨hIssued, hRestricted⟩ := hOrderly leaving hMem
    have hRow := hRegular.solved.mem_of_get? hDistinct hIssued hGet
    have hPopped : ({ v with infeasible := rest } : Tableau Rat).Regular issued :=
      hRegular.mono rfl rfl fun _ hr => hr
    have hPivot := exchangeable_dual (t := { v with infeasible := rest }) hRow hEntering hRestricted
    exact ⟨hPopped.pivot hPivot, (hOrderly.requeue hRest).pivot hPopped.solved,
      hLasting.pivot _ leaving row entering hPopped (hLasting.congr v _ rfl rfl rfl hP) hPivot
        (.violated (needsRepair_iff.mp hRepair))⟩
  obtain ⟨v, ⟨_, _, hEnd⟩, _, rfl⟩ := dualOptimizeWithin_induction hStep ⟨h, hOrderly, hP⟩ hOk
  exact hLasting.congr v _ rfl rfl rfl hEnd

end Passes

theorem Lasting.settle (hLasting : Lasting issued .primary P)
    (hDistinct : Set.InjOn Symbol.id issued) (h : t.Regular issued) (hOrderly : t.Orderly issued)
    (hP : P t) (hOk : t.settle limit = ⟨.ok (), u⟩) : P u := by
  obtain ⟨hRegular, hOrderly, hP⟩ := hLasting.optimize hDistinct h hOrderly hP limit
  rw [Tableau.settle] at hOk
  split at hOk
  · rename_i v hOptimize
    rw [hOptimize] at hRegular hOrderly hP
    exact hLasting.dualOptimize hDistinct hRegular hOrderly hP hOk
  · rename_i hBroken
    rw [hOk] at hBroken
    exact absurd rfl (hBroken () u)

section PhaseOne

theorem Regular.retired (h : t.Regular issued) (hDistinct : Set.InjOn Symbol.id issued)
    (hIssued : fresh ∈ issued) (hRestricted : fresh.isExternal = false) {last : List (Step Rat)}
    (hRetires : t.Retires fresh last u) : t.Retired fresh u := by
  cases hRetires with
  | struck _ => exact .struck
  | erased hGet =>
    have hMem := h.solved.mem_of_get? hDistinct hIssued hGet
    exact .erased (SymbolMap.mem_keys_of_mem hMem)
  | exchanged hGet hPivotable =>
    have hMem := h.solved.mem_of_get? hDistinct hIssued hGet
    exact .exchanged ⟨⟨hMem, List.mem_of_find?_eq_some hPivotable⟩, hRestricted,
      Symbol.isDummy_of_isPivotable (List.find?_some hPivotable)⟩

theorem Retired.sameRows {F : Set Symbol} (hRetired : t.Retired fresh u) (hClosed : t.Closed F)
    (hDistinct : Set.InjOn Symbol.id issued) (h : t.Regular issued) (hIssued : fresh ∈ issued)
    (hFresh : fresh ∉ F)
    (hEntering : ∀ row entering, t.Exchangeable fresh row entering → entering ∉ F) :
    t.SameRows F u := by
  cases hRetired with
  | struck => exact sameRows_strike (hClosed.shuns hDistinct h.solved hIssued hFresh)
  | erased hBasic => exact sameRows_eraseRow hBasic hFresh
  | exchanged hPivot =>
    have hSame := hClosed.sameRows_pivot hDistinct h.solved hPivot (hEntering _ _ hPivot)
    have hAfter := (h.pivot hPivot).solved
    exact hSame.trans (sameRows_strike
      ((hClosed.of_sameRows hSame).shuns hDistinct hAfter hIssued hFresh))

theorem Lasting.insertArtificially (hLasting : Lasting (insert fresh issued) .artificial P)
    (hDistinct : Set.InjOn Symbol.id issued) (h : t.Regular issued) (hOrderly : t.Orderly issued)
    (hRow : t.Addable issued row) (hKinds : row.AllColumns fun c => c.isExternal = false)
    (hFresh : Fresh issued fresh) (hP : P (t.phaseOneStart fresh row))
    (hOk : t.insertArtificially limit fresh row = ⟨.ok true, u⟩) :
    ∃ v, v.Regular (insert fresh issued) ∧ P v ∧
      ({ v with artificial := none } : Tableau Rat).Retired fresh u := by
  have hStart := h.phaseOneStart hRow hFresh hKinds
  have hOrderlyStart : (t.phaseOneStart fresh row).Orderly (insert fresh issued) :=
    fun s hs => ⟨.inr (hOrderly s hs).1, (hOrderly s hs).2⟩
  obtain ⟨hRegular, _, hP⟩ :=
    hLasting.optimize (hFresh.distinct hDistinct) hStart hOrderlyStart hP limit
  obtain ⟨v, last, rfl, _, hRetires⟩ := retires_of_insertArtificially hOk
  have hQuiet : ({ ((t.phaseOneStart fresh row).optimize .artificial limit).state with
      artificial := none } : Tableau Rat).Regular (insert fresh issued) :=
    hRegular.mono rfl rfl (by simp)
  exact ⟨_, hRegular, hP, hQuiet.retired (hFresh.distinct hDistinct) (Set.mem_insert _ _)
    hFresh.restricted hRetires⟩

end PhaseOne

end SoftSimplex.Tableau
