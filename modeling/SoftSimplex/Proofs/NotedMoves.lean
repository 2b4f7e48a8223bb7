import SoftSimplex.Proofs.EncodedRow
import SoftSimplex.Proofs.MovedConstants
import SoftSimplex.Proofs.Passes
import SoftSimplex.Proofs.RowConstants

/-!
# Every move of a value is noted

In any arithmetic, whatever a step does to a tableau, an external symbol that is not noted afterwards
has the value from before, up to additions of zero. The steps of an operation keep the solved form and
the order of the queue on the way, and so does a pass, however it ends.
-/

namespace SoftSimplex.Tableau
set_option autoImplicit false

open Scalar

variable {α : Type} [Scalar α] {issued : Set Symbol} {t u w : Tableau α} {row : Row α}
  {leaving entering s x : Symbol}

section Values

omit [Scalar α] in
theorem mem_touched_touch (h : s.isExternal = true) : s ∈ (t.touch s).touched := by
  rw [touch, if_pos h]
  exact List.mem_cons_self

omit [Scalar α] in
theorem touched_subset_touch : t.touched ⊆ (t.touch s).touched := by
  unfold touch
  split
  · exact List.subset_cons_self _ _
  · exact List.Subset.refl _

@[simp] theorem value_touch : (t.touch s).value x = t.value x := by
  rw [value, rows_touch, value]

theorem value_insertRow_of_ne (h : x.id ≠ s.id) : (t.insertRow s row).value x = t.value x := by
  rw [value, insertRow, SymbolMap.get?_insert, if_neg (Ne.symm h), value]

theorem value_eraseRow_of_ne (h : x.id ≠ s.id) : (t.eraseRow s).value x = t.value x := by
  rw [value, eraseRow, SymbolMap.get?_erase, if_neg (Ne.symm h), value]

theorem value_strike : (t.strike s).value x = t.value x := by
  rw [value, strike, SymbolMap.get?_mapValues, value]
  cases t.rows.get? x <;> rfl

theorem artificial_eliminate_of_none (h : t.artificial = none) :
    (t.eliminate leaving row entering).artificial = none := by
  rw [eliminate, artificial_touch]
  exact Option.map_eq_none_iff.mpr h

theorem artificial_pivot_of_none (h : t.artificial = none) :
    (t.pivot leaving row entering).artificial = none :=
  (artificial_touch _ _).trans (artificial_eliminate_of_none h)

end Values

/-- What was noted stays noted, and every other external symbol has kept its value. -/
structure Accounts (issued : Set Symbol) (t u : Tableau α) : Prop where
  notes : t.touched ⊆ u.touched
  values : ∀ x ∈ issued, x.isExternal = true → x ∉ u.touched → Unmoved (t.value x) (u.value x)

theorem Accounts.refl (t : Tableau α) : Accounts issued t t :=
  ⟨List.Subset.refl _, fun _ _ _ _ => .refl⟩

theorem Accounts.trans (h : Accounts issued t u) (hMore : Accounts issued u w) :
    Accounts issued t w where
  notes := List.Subset.trans h.notes hMore.notes
  values x hx hExternal hNot :=
    (h.values x hx hExternal fun hNoted => hNot (hMore.notes hNoted)).trans
      (hMore.values x hx hExternal hNot)

theorem Accounts.of_value_eq (hNotes : t.touched ⊆ u.touched)
    (hValues : ∀ x ∈ issued, x.isExternal = true → u.value x = t.value x) :
    Accounts issued t u where
  notes := hNotes
  values x hx hExternal _ := by
    rw [hValues x hx hExternal]
    exact .refl

section Steps

variable (hDistinct : Set.InjOn Symbol.id issued)
include hDistinct

theorem id_ne_of_kind (hx : x ∈ issued) (hExternal : x.isExternal = true) (hs : s ∈ issued)
    (hRestricted : s.isExternal = false) : x.id ≠ s.id := by
  intro hId
  rw [hDistinct hx hs hId, hRestricted] at hExternal
  cases hExternal

theorem accounts_substitute (hKeys : ∀ b ∈ t.rows.keys, b ∈ issued) :
    Accounts issued t (t.substitute s row) where
  notes := List.subset_append_right _ _
  values x hx hExternal hNot := by
    have hValue : (t.substitute s row).value x =
        ((t.rows.get? x).map fun r => r.substitute s row).elim 0 Row.constant := by
      rw [value, substitute, SymbolMap.get?_mapValues]
      cases t.rows.get? x <;> rfl
    rw [hValue, value]
    cases hGet : t.rows.get? x with
    | none => exact .refl
    | some r =>
      refine Row.unmoved_substitute ?_
      by_contra hMoves
      obtain ⟨y, hId, hy⟩ := SymbolMap.exists_mem_of_get? hGet
      obtain rfl : y = x := hDistinct (hKeys y (SymbolMap.mem_keys_of_mem hy)) hx hId
      refine hNot (List.mem_append.mpr (.inl (List.mem_reverse.mpr (List.mem_filterMap.mpr
        ⟨(y, r), hy, if_pos ?_⟩))))
      simpa [hExternal] using hMoves

theorem accounts_eliminate (hKeys : ∀ b ∈ t.rows.keys, b ∈ issued) (hLeaving : leaving ∈ issued) :
    Accounts issued t (t.eliminate leaving row entering) := by
  have hSubstitute : Accounts issued (t.eraseRow leaving)
      ((t.eraseRow leaving).substitute entering (row.exchange leaving entering)) :=
    accounts_substitute hDistinct fun b hb => hKeys b (mem_keys_eraseRow hb).1
  refine ⟨List.Subset.trans hSubstitute.notes touched_subset_touch, fun x hx hExternal hNot => ?_⟩
  have hne : x.id ≠ leaving.id := by
    intro hId
    obtain rfl := hDistinct hx hLeaving hId
    exact hNot (mem_touched_touch hExternal)
  have hOld := hSubstitute.values x hx hExternal fun hNoted => hNot (touched_subset_touch hNoted)
  rw [value_eraseRow_of_ne hne] at hOld
  rwa [Tableau.eliminate, value_touch]

/-- A symbol that becomes basic is noted as well. -/
theorem Accounts.insert_touched (h : Accounts issued t u) (hs : s ∈ issued) :
    Accounts issued t ((u.touch s).insertRow s row) := by
  refine ⟨List.Subset.trans h.notes touched_subset_touch, fun x hx hExternal hNot => ?_⟩
  have hne : x.id ≠ s.id := by
    intro hId
    obtain rfl := hDistinct hx hs hId
    exact hNot (mem_touched_touch hExternal)
  rw [value_insertRow_of_ne hne, value_touch]
  exact h.values x hx hExternal fun hNoted => hNot (touched_subset_touch hNoted)

theorem accounts_restricted (hs : s ∈ issued) (hRestricted : s.isExternal = false)
    (hNotes : u.touched = t.touched)
    (hRows : ∀ x : Symbol, x.id ≠ s.id → u.value x = t.value x) : Accounts issued t u :=
  .of_value_eq (hNotes ▸ List.Subset.refl _) fun x hx hExternal =>
    hRows x (id_ne_of_kind hDistinct hx hExternal hs hRestricted)

end Steps

/-- A tableau that an operation has come to, measured against the one that it started from. -/
structure Evolves (issued : Set Symbol) (t u : Tableau α) : Prop extends Accounts issued t u where
  solved : u.Solved issued
  orderly : u.Orderly issued
  bare : t.artificial = none → u.artificial = none

theorem Evolves.refl (hSolved : t.Solved issued) (hOrderly : t.Orderly issued) :
    Evolves issued t t :=
  ⟨.refl t, hSolved, hOrderly, id⟩

theorem Evolves.trans (h : Evolves issued t u) (hMore : Evolves issued u w) : Evolves issued t w :=
  ⟨h.toAccounts.trans hMore.toAccounts, hMore.solved, hMore.orderly, fun hNone =>
    hMore.bare (h.bare hNone)⟩

theorem Evolves.requeue (h : Evolves issued t u) {rest : List Symbol}
    (hRest : ∀ c ∈ rest, c ∈ u.infeasible) : Evolves issued t { u with infeasible := rest } :=
  ⟨⟨h.notes, h.values⟩, h.solved.mono rfl rfl fun _ hr => hr, h.orderly.requeue hRest, h.bare⟩

/-- Only the objective is another. -/
theorem Evolves.of_objective {objective : Row α} (hSolved : t.Solved issued)
    (hOrderly : t.Orderly issued)
    (hObjective : objective.AllColumns fun c => c ∈ issued ∧ ∀ b ∈ t.rows.keys, c.id ≠ b.id) :
    Evolves issued t { t with objective } where
  toAccounts := .of_value_eq (List.Subset.refl _) fun _ _ _ => rfl
  solved :=
    { keys := hSolved.keys
      columns := ⟨hSolved.columns.rows, hObjective.imp fun _ hc => hc.1, hSolved.columns.artificial⟩
      nonbasic := fun b hb => ⟨(hSolved.nonbasic b hb).rows, hObjective.imp fun _ hc => hc.2 b hb,
        (hSolved.nonbasic b hb).artificial⟩ }
  orderly := hOrderly
  bare := id

section Passes

variable (hDistinct : Set.InjOn Symbol.id issued)
include hDistinct

theorem Evolves.pivot (h : Evolves issued t u) (hRow : (leaving, row) ∈ u.rows.entries)
    (hEntering : entering ∈ issued) : Evolves issued t (u.pivot leaving row entering) where
  toAccounts := h.toAccounts.trans ((accounts_eliminate hDistinct h.solved.keys
    (h.solved.keys leaving (SymbolMap.mem_keys_of_mem hRow))).insert_touched hDistinct hEntering)
  solved := h.solved.pivot_of_issued hRow hEntering
  orderly := h.orderly.pivot h.solved
  bare hNone := artificial_pivot_of_none (h.bare hNone)

/-- A primal pass evolves the tableau, however it ends. -/
theorem evolves_optimize (goal : Goal) (limit : Nat) (hSolved : t.Solved issued)
    (hOrderly : t.Orderly issued) : Evolves issued t (t.optimize goal limit).state := by
  refine optimizeWithin_induction (P := Evolves issued t) ?_ limit (.refl hSolved hOrderly)
  intro u entering leaving row h hEntering hLeaving
  exact h.pivot hDistinct (mem_rows_of_leavingRow? hLeaving).1 (h.solved.entering_mem hEntering)

/-- A dual pass evolves the tableau, however it ends. -/
theorem evolves_dualOptimize (limit : Nat) (hSolved : t.Solved issued)
    (hOrderly : t.Orderly issued) : Evolves issued t (t.dualOptimize limit).state := by
  refine dualOptimizeWithin_state_induction (P := Evolves issued t) ?_ ?_ limit
    (.refl hSolved hOrderly)
  · intro u rest h hRest
    exact h.requeue hRest
  · intro u leaving row rest entering h hNext hEntering
    obtain ⟨hMem, hRest, hGet, _⟩ := nextViolated?_eq_some hNext
    obtain ⟨c, hCell, _⟩ := mem_cells_of_dualEntering? hEntering
    have hRow := h.solved.mem_of_get? hDistinct (h.orderly leaving hMem).1 hGet
    exact (h.requeue hRest).pivot hDistinct hRow
      (h.solved.columns.rows _ hRow entering (SymbolMap.mem_keys_of_mem hCell))

theorem evolves_settle (limit : Nat) (hSolved : t.Solved issued) (hOrderly : t.Orderly issued) :
    Evolves issued t (t.settle limit).state := by
  have hPrimal := evolves_optimize hDistinct .primary limit hSolved hOrderly
  rw [settle]
  split
  · rename_i u hOptimize
    rw [hOptimize] at hPrimal
    exact hPrimal.trans (evolves_dualOptimize hDistinct limit hPrimal.solved hPrimal.orderly)
  · exact hPrimal

end Passes

section Retirement

variable (hDistinct : Set.InjOn Symbol.id issued)

theorem Evolves.strike (h : Evolves issued t u) (hNone : u.artificial = none) :
    Evolves issued t (u.strike s) where
  toAccounts := h.toAccounts.trans (.of_value_eq (List.Subset.refl _) fun _ _ _ => value_strike)
  solved := h.solved.strike hNone
  orderly := h.orderly.mono rfl
  bare _ := hNone

include hDistinct in
theorem Evolves.eraseRow (h : Evolves issued t u) (hs : s ∈ issued)
    (hRestricted : s.isExternal = false) : Evolves issued t (u.eraseRow s) where
  toAccounts := h.toAccounts.trans
    (accounts_restricted hDistinct hs hRestricted rfl fun _ => value_eraseRow_of_ne)
  solved := h.solved.eraseRow
  orderly := h.orderly.mono rfl
  bare := h.bare

include hDistinct in
theorem Evolves.retired (h : Evolves issued t u) (hs : s ∈ issued)
    (hRestricted : s.isExternal = false) (hNone : u.artificial = none) {last : List (Step α)}
    {v : Tableau α} (hRetires : u.Retires s last v) : Evolves issued t v := by
  cases hRetires with
  | struck _ => exact h.strike hNone
  | erased _ => exact h.eraseRow hDistinct hs hRestricted
  | @exchanged row entering hGet hPivotable =>
    have hRow := h.solved.mem_of_get? hDistinct hs hGet
    have hPivot := h.pivot hDistinct hRow
      (h.solved.columns.rows _ hRow entering (List.mem_of_find?_eq_some hPivotable))
    exact hPivot.strike (artificial_pivot_of_none hNone)

end Retirement

section PhaseOne

omit [Scalar α] in
theorem Solved.phaseOneStart (hSolved : t.Solved issued) (hs : s ∈ issued)
    (hNew : t.AllRows fun r => r.AllColumns fun c => c.id ≠ s.id)
    (hRow : row.AllColumns fun c => c ∈ issued ∧ c.id ≠ s.id ∧ ∀ b ∈ t.rows.keys, c.id ≠ b.id) :
    (t.phaseOneStart s row).Solved issued := by
  have hInserted := hSolved.insertRow hs hNew hRow
  have hBasic : ∀ b ∈ (t.insertRow s row).rows.keys, row.AllColumns fun c => c.id ≠ b.id := by
    intro b hb c hc
    rcases mem_keys_insertRow hb with rfl | hb
    · exact (hRow c hc).2.1
    · exact (hRow c hc).2.2 b hb
  exact
    { keys := hInserted.keys
      columns := ⟨hInserted.columns.rows, hInserted.columns.objective, fun r hr =>
        Option.mem_some_iff.mp hr ▸ hRow.imp fun _ hc => hc.1⟩
      nonbasic := fun b hb => ⟨(hInserted.nonbasic b hb).rows, (hInserted.nonbasic b hb).objective,
        fun r hr => Option.mem_some_iff.mp hr ▸ hBasic b hb⟩ }

end PhaseOne

section Operations

variable (hDistinct : Set.InjOn Symbol.id issued) (hSolved : t.Solved issued)
  (hOrderly : t.Orderly issued)
include hDistinct hSolved hOrderly

theorem evolves_install (hs : s ∈ issued)
    (hRow : row.AllColumns fun c => c ∈ issued ∧ ∀ b ∈ t.rows.keys, c.id ≠ b.id) :
    Evolves issued t (t.install row s) where
  toAccounts := (accounts_substitute hDistinct hSolved.keys).insert_touched hDistinct hs
  solved := hSolved.install hs hRow
  orderly := hOrderly.install hSolved
  bare hNone := by
    rw [show (t.install row s).artificial = _ from artificial_touch _ _]
    exact Option.map_eq_none_iff.mpr hNone

omit hDistinct in
theorem evolves_unweigh (strength : α) (hs : s ∈ issued) :
    Evolves issued t (t.unweigh strength s) := by
  rw [unweigh_eq]
  exact .of_objective hSolved hOrderly (columns_termRow hSolved hs fun c hc =>
    ⟨hSolved.columns.objective c hc, fun b hb => (hSolved.nonbasic b hb).objective c hc⟩)

omit hDistinct in
theorem evolves_forget {live : LiveConstraint α} (hIssued : ∀ x ∈ live.tag.symbols, x ∈ issued) :
    Evolves issued t (t.forget live) := by
  have hErrors : ∀ x ∈ live.tag.errors, x ∈ issued := fun x hx =>
    hIssued x (Tag.mem_symbols_of_mem_errors hx)
  rw [forget]
  generalize live.tag.errors = errors at hErrors
  induction errors generalizing t with
  | nil => exact .refl hSolved hOrderly
  | cons x rest ih =>
    have hFirst := evolves_unweigh hSolved hOrderly live.constraint.strength.value
      (hErrors x List.mem_cons_self)
    exact hFirst.trans (ih hFirst.solved hFirst.orderly fun y hy =>
      hErrors y (List.mem_cons_of_mem _ hy))

theorem evolves_dropMarker? (hs : s ∈ issued) (hRestricted : s.isExternal = false)
    (hDrop : t.dropMarker? s = some u) : Evolves issued t u := by
  rw [dropMarker?] at hDrop
  split at hDrop
  · obtain rfl := Option.some.inj hDrop
    exact (Evolves.refl hSolved hOrderly).eraseRow hDistinct hs hRestricted
  · obtain ⟨⟨leaving, row⟩, hLeaving, rfl⟩ := Option.map_eq_some_iff.mp hDrop
    have hRow := mem_rows_of_markerLeavingRow? hLeaving
    exact
      { accounts_eliminate hDistinct hSolved.keys
          (hSolved.keys leaving (SymbolMap.mem_keys_of_mem hRow)) with
        solved := hSolved.eliminate hRow
        orderly := hOrderly.eliminate hSolved
        bare := artificial_eliminate_of_none }

theorem evolves_addToBasic (v : α) (hs : s ∈ issued) (hRestricted : s.isExternal = false)
    (hGet : t.rows.get? s = some row) : Evolves issued t (t.addToBasic s row v) where
  toAccounts := by
    refine accounts_restricted hDistinct hs hRestricted touched_addToBasic fun x hne => ?_
    rw [value, rows_addToBasic]
    exact value_insertRow_of_ne hne
  solved := (sameCells_addToBasic (hSolved.mem_of_get? hDistinct hs hGet)).solved hSolved
  orderly := hOrderly.addToBasic hs hRestricted
  bare hNone :=
    (sameCells_addToBasic (hSolved.mem_of_get? hDistinct hs hGet)).artificial.trans hNone

theorem evolves_moveMarker (δ : α) : Evolves issued t (t.moveMarker s δ) where
  notes := List.subset_append_right _ _
  values x hx hExternal hNot := by
    have hStays : ∀ r, t.rows.get? x = some r → (!(r.coefficient s == 0)) = false := by
      intro r hGet
      by_contra hMoves
      rw [Bool.not_eq_false] at hMoves
      refine hNot (List.mem_append.mpr (.inl (List.mem_reverse.mpr (List.mem_filterMap.mpr
        ⟨_, SymbolMap.mem_mapValues_iff.mpr ⟨(x, r), hSolved.mem_of_get? hDistinct hx hGet, rfl⟩,
          if_pos ?_⟩))))
      dsimp only
      rw [if_pos hMoves]
      exact Bool.and_eq_true_iff.mpr ⟨hExternal, hMoves⟩
    rw [value, value, moveMarker, SymbolMap.get?_mapValues]
    cases hGet : t.rows.get? x with
    | none => exact .refl
    | some r =>
      dsimp only [Option.map_some]
      rw [if_neg (by simp [hStays r hGet])]
      exact .refl
  solved := sameCells_moveMarker.solved hSolved
  orderly := hOrderly.moveMarker hSolved
  bare := id

theorem evolves_shiftEdit {tag : Tag} (δ : α)
    (hTag : ∀ x ∈ tag.symbols, x ∈ issued ∧ x.isExternal = false) :
    Evolves issued t (t.shiftEdit tag δ) := by
  have hAdd : ∀ (x : Symbol) (row : Row α) (v : α), x ∈ tag.symbols → t.rows.get? x = some row →
      Evolves issued t (t.addToBasic x row v) := fun x row v hx =>
    evolves_addToBasic hDistinct hSolved hOrderly v (hTag x hx).1 (hTag x hx).2
  rcases t.shiftEdit_cases tag δ with ⟨row, hGet, hShift⟩ | ⟨x, hx, row, hGet, hShift⟩ |
    ⟨_, hShift⟩ <;> rw [hShift]
  · exact hAdd _ row _ tag.marker_mem_symbols hGet
  · exact hAdd x row _ (List.mem_cons_of_mem _ (Option.mem_toList.mpr hx)) hGet
  · exact evolves_moveMarker hDistinct hSolved hOrderly δ

/-- Phase one evolves the tableau with any verdict and after a breakdown. -/
theorem evolves_insertArtificially (limit : Nat) (hs : s ∈ issued) (hRestricted : s.isExternal = false)
    (hNew : t.AllRows fun r => r.AllColumns fun c => c.id ≠ s.id)
    (hRow : row.AllColumns fun c => c ∈ issued ∧ c.id ≠ s.id ∧ ∀ b ∈ t.rows.keys, c.id ≠ b.id) :
    Evolves issued t (t.insertArtificially limit s row).state := by
  have hStart := hSolved.phaseOneStart hs hNew hRow
  have hFirst : Accounts issued t (t.phaseOneStart s row) :=
    accounts_restricted hDistinct hs hRestricted rfl fun _ => value_insertRow_of_ne
  have hPass := evolves_optimize hDistinct .artificial limit hStart (hOrderly.mono rfl)
  have hBare : Evolves issued t
      { ((t.phaseOneStart s row).optimize .artificial limit).state with artificial := none } :=
    { toAccounts := hFirst.trans ⟨hPass.notes, hPass.values⟩
      solved := hPass.solved.mono rfl rfl fun _ hr => by cases hr
      orderly := hPass.orderly.mono rfl
      bare := fun _ => rfl }
  rw [insertArtificially]
  rw [phaseOneStart] at hBare
  dsimp only
  generalize optimize { t.insertRow s row with artificial := some row } .artificial limit = pass
    at hBare
  obtain ⟨result, u⟩ := pass
  cases result with
  | error cause => exact hBare
  | ok _ => exact hBare.retired hDistinct hs hRestricted rfl (retires _ s u.reachedZero)

end Operations

end SoftSimplex.Tableau
