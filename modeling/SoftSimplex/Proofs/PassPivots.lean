import SoftSimplex.Proofs.PivotRuns
import SoftSimplex.Proofs.PrimalPivots
import SoftSimplex.Proofs.RepairQueue

/-!
# The symbols that pivots exchange

A pivot of a pass exchanges two restricted symbols. The ratio tests let restricted rows leave only, and the
symbol that enters is a cell of such a row, which mentions none of the caller's symbols. So the rows of the
caller's symbols stay through every pass, whether it comes to an end or breaks down.
-/

namespace SoftSimplex.Tableau
set_option autoImplicit false

/-- Neither symbol is one of the caller's. -/
def Pivot.Restricted (p : Pivot) : Prop :=
  p.leaving.isExternal = false ∧ p.entering.isExternal = false

section Restriction

variable {α : Type} {steps more : List (Step α)}

/-- No pivot of the steps, whether it stands or not, exchanges a symbol of the caller. -/
def RestrictedSteps (steps : List (Step α)) : Prop := ∀ p ∈ steps.flatMap Step.pivots, p.Restricted

theorem restrictedSteps_nil : RestrictedSteps ([] : List (Step α)) := List.forall_mem_nil _

theorem restrictedSteps_append :
    RestrictedSteps (steps ++ more) ↔ RestrictedSteps steps ∧ RestrictedSteps more := by
  rw [RestrictedSteps, List.flatMap_append]
  exact List.forall_mem_append

theorem restrictedSteps_rollBack :
    RestrictedSteps ([.rollBack (steps.flatMap Step.pivots)] : List (Step α)) ↔
      RestrictedSteps steps := by
  rw [RestrictedSteps, List.flatMap_singleton]
  rfl

end Restriction

section Callers

variable {α : Type} {t u v : Tableau α} {row : Row α} {s : Symbol}

/-- The caller's symbols that are basic remain so. -/
def KeepsCallers (t u : Tableau α) : Prop :=
  ∀ x ∈ t.rows.keys, x.isExternal = true → x ∈ u.rows.keys

theorem KeepsCallers.trans (h : t.KeepsCallers u) (hMore : u.KeepsCallers v) : t.KeepsCallers v :=
  fun x hx hKind => hMore x (h x hx hKind) hKind

theorem keepsCallers_of_keys (h : u.rows.keys = t.rows.keys) : t.KeepsCallers u :=
  fun _ hx _ => h.symm ▸ hx

theorem keepsCallers_insertRow (hNew : ∀ b ∈ t.rows.keys, b.id ≠ s.id) :
    t.KeepsCallers (t.insertRow s row) :=
  fun _ hx _ => (SymbolMap.mem_keys_insert_iff hNew).mpr (.inr hx)

theorem keepsCallers_eraseRow (hKey : s ∈ t.rows.keys) (hKind : s.isExternal = false) :
    t.KeepsCallers (t.eraseRow s) := by
  intro x hx hExternal
  refine SymbolMap.mem_keys_erase_iff.mpr ⟨hx, fun hId => ?_⟩
  rw [SymbolMap.key_eq_of_id_eq hx hKey hId, hKind] at hExternal
  cases hExternal

variable [Scalar α]

theorem keepsCallers_install (hNew : ∀ b ∈ t.rows.keys, b.id ≠ s.id) :
    t.KeepsCallers (t.install row s) := by
  have hKeys : ((t.substitute s (row.solveFor s)).touch s).rows.keys = t.rows.keys := by
    rw [rows_touch, keys_substitute]
  exact (keepsCallers_of_keys hKeys).trans (keepsCallers_insertRow fun b hb => hNew b (hKeys ▸ hb))

theorem keepsCallers_addToBasic {x : α} (hRow : (s, row) ∈ t.rows.entries) :
    t.KeepsCallers (t.addToBasic s row x) := by
  intro y hy _
  obtain ⟨e, he, rfl⟩ := List.mem_map.mp hy
  by_cases hId : e.1.id = s.id
  · have hMoved : (s, row.addConstant x) ∈ (t.addToBasic s row x).rows.entries :=
      (mem_addToBasic_iff hRow).mpr (.inl rfl)
    have hKey : s ∈ (t.addToBasic s row x).rows.keys := SymbolMap.mem_keys_of_mem hMoved
    rwa [SymbolMap.eq_of_mem_of_id_eq he hRow hId]
  · exact SymbolMap.mem_keys_of_mem ((mem_addToBasic_iff hRow).mpr (.inr ⟨he, hId⟩))

theorem keepsCallers_shiftEdit {issued : Set Symbol} (hDistinct : Set.InjOn Symbol.id issued)
    (h : t.Solved issued) {tag : Tag} (hTag : ∀ x ∈ tag.symbols, x ∈ issued) (δ : α) :
    t.KeepsCallers (t.shiftEdit tag δ) := by
  rcases t.shiftEdit_cases tag δ with ⟨row, hGet, hShift⟩ | ⟨x, hx, row, hGet, hShift⟩ |
    ⟨_, hShift⟩ <;> rw [hShift]
  · exact keepsCallers_addToBasic (h.mem_of_get? hDistinct (hTag _ tag.marker_mem_symbols) hGet)
  · have hMem : x ∈ tag.symbols := List.mem_cons_of_mem _ (Option.mem_toList.mpr hx)
    exact keepsCallers_addToBasic (h.mem_of_get? hDistinct (hTag x hMem) hGet)
  · exact keepsCallers_of_keys (SymbolMap.keys_mapValues _ _)

end Callers

variable {issued : Set Symbol} {t u v : Tableau Rat} {row : Row Rat} {leaving entering fresh : Symbol}
  {steps more : List (Step Rat)}

/-- What steps with pivots between restricted symbols leave of a tableau. Only what leaves in one of the
pivots stops being basic. -/
structure Confined (issued : Set Symbol) (t : Tableau Rat) (steps : List (Step Rat)) (u : Tableau Rat) :
    Prop where
  regular : u.Regular issued
  orderly : u.Orderly issued
  restricted : RestrictedSteps steps
  lost : ∀ x ∈ t.rows.keys, x ∉ u.rows.keys → ∃ p ∈ steps.flatMap Step.pivots, p.leaving = x

theorem Confined.keeps (h : Confined issued t steps u) : t.KeepsCallers u := by
  intro x hx hExternal
  by_contra hGone
  obtain ⟨p, hp, rfl⟩ := h.lost x hx hGone
  rw [(h.restricted p hp).1] at hExternal
  cases hExternal

theorem Confined.trans (hFirst : Confined issued t steps u) (hMore : Confined issued u more v) :
    Confined issued t (steps ++ more) v where
  regular := hMore.regular
  orderly := hMore.orderly
  restricted := restrictedSteps_append.mpr ⟨hFirst.restricted, hMore.restricted⟩
  lost x hx hGone := by
    rw [List.flatMap_append]
    by_cases hStill : x ∈ u.rows.keys
    · obtain ⟨p, hp, hLeaving⟩ := hMore.lost x hStill hGone
      exact ⟨p, List.mem_append_right _ hp, hLeaving⟩
    · obtain ⟨p, hp, hLeaving⟩ := hFirst.lost x hx hStill
      exact ⟨p, List.mem_append_left _ hp, hLeaving⟩

section Steps

variable (h : t.Regular issued)
include h

theorem Regular.confined (hOrderly : t.Orderly issued) : Confined issued t [] t :=
  ⟨h, hOrderly, List.forall_mem_nil _, fun _ hx hGone => absurd hx hGone⟩

theorem Regular.confined_requeue (hOrderly : t.Orderly issued) {rest : List Symbol}
    (hRest : ∀ s ∈ rest, s ∈ t.infeasible) :
    Confined issued t [.requeue rest] { t with infeasible := rest } :=
  ⟨h.mono rfl rfl fun _ hr => hr, hOrderly.requeue hRest, List.forall_mem_nil _,
    fun _ hx hGone => absurd hx hGone⟩

variable (hPivot : t.Exchangeable leaving row entering)
include hPivot

theorem Regular.restricted_pivot : Pivot.Restricted ⟨leaving, entering⟩ :=
  ⟨hPivot.restricted, h.separate.rows _ hPivot.row_mem hPivot.restricted _ hPivot.entering_mem⟩

theorem Regular.mem_keys_pivot_of_ne {x : Symbol} (hx : x ∈ t.rows.keys) (hne : x ≠ leaving) :
    x ∈ (t.pivot leaving row entering).rows.keys :=
  (h.solved.mem_keys_pivot_iff hPivot.toCrossing).mpr (.inr ⟨hx, hne⟩)

theorem Regular.keepsCallers_pivot : t.KeepsCallers (t.pivot leaving row entering) := by
  intro x hx hExternal
  refine h.mem_keys_pivot_of_ne hPivot hx ?_
  rintro rfl
  rw [hPivot.restricted] at hExternal
  cases hExternal

theorem Regular.confined_pivot (hOrderly : t.Orderly issued) (stage : Stage) :
    Confined issued t [.pivot stage leaving row entering] (t.pivot leaving row entering) where
  regular := h.pivot hPivot
  orderly := hOrderly.pivot h.solved
  restricted _ hp := List.mem_singleton.mp hp ▸ h.restricted_pivot hPivot
  lost x hx hGone := by
    by_contra hOther
    have hne : x ≠ leaving := fun hEq => hOther ⟨_, List.mem_singleton_self _, hEq.symm⟩
    exact hGone (h.mem_keys_pivot_of_ne hPivot hx hne)

end Steps

section Passes

theorem Confined.requeue (h : Confined issued t steps u) {rest : List Symbol}
    (hRest : ∀ s ∈ rest, s ∈ u.infeasible) :
    Confined issued t (steps ++ [.requeue rest]) { u with infeasible := rest } :=
  h.trans (h.regular.confined_requeue h.orderly hRest)

variable (hDistinct : Set.InjOn Symbol.id issued)
include hDistinct

theorem Confined.primal (h : Confined issued t steps u) {goal : Goal}
    (hEntering : u.entering? goal = some entering)
    (hLeaving : u.leavingRow? entering = some (leaving, row)) :
    Confined issued t (steps ++ [.pivot .primal leaving row entering])
      (u.pivot leaving row entering) :=
  have hPivot := h.regular.solved.exchangeable_primal hDistinct hEntering hLeaving
  h.trans (h.regular.confined_pivot hPivot h.orderly .primal)

theorem Confined.repair (h : Confined issued t steps u) {rest : List Symbol}
    (hNext : nextViolated? u.rows u.infeasible = some (leaving, row, rest))
    (hEntering : ({ u with infeasible := rest } : Tableau Rat).dualEntering? row = some entering) :
    Confined issued t (steps ++ [.requeue rest, .pivot .dual leaving row entering])
      (({ u with infeasible := rest } : Tableau Rat).pivot leaving row entering) := by
  have hPopped := h.regular.confined_requeue h.orderly (nextViolated?_eq_some hNext).2.1
  obtain ⟨hRow, hKind, _⟩ := h.orderly.queuesRestricted.violated hDistinct h.regular.solved hNext
  have hPivot := exchangeable_dual (t := { u with infeasible := rest }) hRow hEntering hKind
  exact h.trans (hPopped.trans (hPopped.regular.confined_pivot hPivot hPopped.orderly .dual))

section Whole

variable {limit : Nat} (h : t.Regular issued) (hOrderly : t.Orderly issued)
include h hOrderly

theorem Regular.confined_primal (goal : Goal) :
    Confined issued t (primalSteps goal limit t) (t.optimize goal limit).state :=
  primal_trace (P := Confined issued t) (fun _ _ _ _ _ hBefore => hBefore.primal hDistinct) limit []
    (h.confined hOrderly)

theorem Regular.confined_dual :
    Confined issued t (dualSteps limit t) (t.dualOptimize limit).state :=
  dual_trace (P := Confined issued t) (fun _ _ _ hBefore => hBefore.requeue)
    (fun _ _ _ _ _ _ hBefore => hBefore.repair hDistinct) limit [] (h.confined hOrderly)

theorem Regular.confined_settle : Confined issued t (settleSteps limit t) (t.settle limit).state :=
  settle_trace (P := Confined issued t) (fun _ _ _ hBefore => hBefore.requeue)
    (fun _ _ _ _ _ _ hBefore => hBefore.repair hDistinct)
    (fun _ _ _ _ _ hBefore => hBefore.primal hDistinct) [] (h.confined hOrderly)

end Whole

section PhaseOne

/-- The fresh symbol of a phase one takes no symbol of the caller with it. -/
theorem Regular.confines_retired (h : t.Regular issued) (hIssued : fresh ∈ issued)
    (hKind : fresh.isExternal = false) (hRetires : t.Retires fresh more u) :
    RestrictedSteps more ∧ t.KeepsCallers u := by
  cases hRetires with
  | struck _ => exact ⟨List.forall_mem_nil _, keepsCallers_of_keys (keys_strike t fresh)⟩
  | erased hGet =>
    have hRow := h.solved.mem_of_get? hDistinct hIssued hGet
    exact ⟨List.forall_mem_nil _, keepsCallers_eraseRow (SymbolMap.mem_keys_of_mem hRow) hKind⟩
  | @exchanged row entering hGet hPivotable =>
    have hPivot : t.Exchangeable fresh row entering :=
      ⟨⟨h.solved.mem_of_get? hDistinct hIssued hGet, List.mem_of_find?_eq_some hPivotable⟩, hKind,
        Symbol.isDummy_of_isPivotable (List.find?_some hPivotable)⟩
    refine ⟨fun p hp => ?_, ?_⟩
    · obtain rfl := List.mem_singleton.mp hp
      exact h.restricted_pivot hPivot
    · exact (h.keepsCallers_pivot hPivot).trans (keepsCallers_of_keys (keys_strike _ fresh))

variable {limit : Nat} (h : t.Regular issued) (hOrderly : t.Orderly issued)
  (hRow : t.Addable issued row) (hKinds : row.AllColumns fun c => c.isExternal = false)
  (hFresh : Fresh issued fresh)
include h hOrderly hRow hKinds hFresh

theorem Regular.confined_phaseOne : Confined (insert fresh issued) (t.phaseOneStart fresh row)
    (primalSteps .artificial limit (t.phaseOneStart fresh row))
    ((t.phaseOneStart fresh row).optimize .artificial limit).state := by
  have hStart : (t.phaseOneStart fresh row).Regular (insert fresh issued) :=
    h.phaseOneStart hRow hFresh hKinds
  have hQueue : (t.phaseOneStart fresh row).Orderly (insert fresh issued) :=
    (hOrderly.weaken (Set.subset_insert _ _)).mono rfl
  exact hStart.confined_primal (hFresh.distinct hDistinct) hQueue .artificial

theorem Regular.restricted_phaseOne : RestrictedSteps (t.phaseOneSteps limit fresh row) := by
  have hPass : Confined _ _ _ ((t.phaseOneStart fresh row).optimize .artificial limit).state :=
    h.confined_phaseOne hDistinct hOrderly hRow hKinds hFresh
  rw [phaseOneSteps]
  refine restrictedSteps_append.mpr ⟨hPass.restricted, ?_⟩
  generalize (t.phaseOneStart fresh row).optimize .artificial limit = pass at hPass
  obtain ⟨result, u⟩ := pass
  cases result with
  | error cause => exact restrictedSteps_nil
  | ok _ =>
    have hBare : ({ u with artificial := none } : Tableau Rat).Regular (insert fresh issued) :=
      hPass.regular.mono rfl rfl (by simp)
    exact (hBare.confines_retired (hFresh.distinct hDistinct) (Set.mem_insert _ _) hFresh.restricted
      (retires _ fresh true)).1

theorem Regular.keepsCallers_insertArtificially {verdict : Bool}
    (hOk : t.insertArtificially limit fresh row = ⟨.ok verdict, u⟩) : t.KeepsCallers u := by
  have hPass : Confined _ _ _ ((t.phaseOneStart fresh row).optimize .artificial limit).state :=
    h.confined_phaseOne hDistinct hOrderly hRow hKinds hFresh
  have hInserted : t.KeepsCallers (t.phaseOneStart fresh row) :=
    keepsCallers_insertRow (h.keys_ne_fresh hFresh)
  have hBare : ({ ((t.phaseOneStart fresh row).optimize .artificial limit).state with
      artificial := none } : Tableau Rat).Regular (insert fresh issued) :=
    hPass.regular.mono rfl rfl (by simp)
  obtain ⟨v, last, rfl, _, hRetires⟩ := retires_of_insertArtificially hOk
  exact (hInserted.trans hPass.keeps).trans (hBare.confines_retired (hFresh.distinct hDistinct)
    (Set.mem_insert _ _) hFresh.restricted hRetires).2

end PhaseOne

end Passes

end SoftSimplex.Tableau
