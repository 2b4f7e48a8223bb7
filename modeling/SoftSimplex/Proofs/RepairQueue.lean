import SoftSimplex.Proofs.NotedMoves

/-!
# What the queue overlooks

A substitution queues every restricted row below zero, but the row that a pivot inserts afterwards is
not among them. A dual pivot and an installation insert a row that is not below zero. A primal pivot
and the retirement of a phase one can insert one that is, and until the next substitution that row is
the only one that needs repair and does not wait for it.
-/

namespace SoftSimplex
set_option autoImplicit false

/-- The signs of negations and of products with a negated inverse. -/
class SignRules (α : Type) [Scalar α] : Prop where
  not_neg_lt_zero {a : α} (h : a < 0) : ¬ -a < 0
  not_lt_zero_of_rising {a c : α} (h : a < 0) (hCell : 0 < c) : ¬ a * (-1 / c) < 0
  not_lt_zero_of_falling {a c : α} (h : ¬ a < 0) (hCell : c < 0) : ¬ a * (-1 / c) < 0
  negligible_of_unit {a c : α} (h : Scalar.negligible a = true) (hCell : c = 1 ∨ c = -1) :
    Scalar.negligible (a * (-1 / c)) = true

namespace Tableau

variable {α : Type} [Scalar α] {issued : Set Symbol} {t u : Tableau α} {row : Row α}
  {leaving entering s : Symbol} {o : Option (Symbol × α)}

theorem lt_zero_of_needsRepair (h : needsRepair row = true) : row.constant < 0 :=
  of_decide_eq_true (Bool.and_eq_true_iff.mp h).1

theorem needsRepair_eq_false (h : ¬ row.constant < 0) : needsRepair row = false := by
  rw [needsRepair, decide_eq_false h, Bool.false_and]

theorem needsRepair_of_negligible (h : Scalar.negligible row.constant = true) :
    needsRepair row = false := by
  rw [needsRepair, h, Bool.not_true, Bool.and_false]

/-- Every restricted row that needs repair is in the queue, unless it is the overlooked one. -/
def Watched (t : Tableau α) (o : Option (Symbol × α)) : Prop :=
  ∀ e ∈ t.rows.entries, e.1.isExternal = false → needsRepair e.2 = true →
    e.1 ∈ t.infeasible ∨ o = some (e.1, e.2.constant)

section Frame

theorem Watched.weaken (h : t.Watched none) : t.Watched o :=
  fun e he hKind hRepair => .inl ((h e he hKind hRepair).resolve_right nofun)

theorem Watched.mono (h : t.Watched o) (hRows : u.rows = t.rows)
    (hQueue : u.infeasible = t.infeasible) : u.Watched o := by
  intro e he
  rw [hQueue]
  exact h e (hRows ▸ he)

theorem Watched.touch (h : t.Watched o) : (t.touch s).Watched o :=
  h.mono (rows_touch t s) (infeasible_touch t s)

theorem Watched.eraseRow (h : t.Watched o) : (t.eraseRow s).Watched o :=
  fun e he => h e (SymbolMap.mem_erase_iff.mp he).1

theorem Watched.strike (h : t.Watched o) : (t.strike s).Watched o := by
  intro e he
  obtain ⟨d, hd, rfl⟩ := SymbolMap.mem_mapValues_iff.mp he
  exact h d hd

theorem Watched.insertRow (h : t.Watched o) (hNew : ∀ b ∈ t.rows.keys, b.id ≠ s.id)
    (hRow : s.isExternal = false → needsRepair row = false) : (t.insertRow s row).Watched o := by
  intro e he hKind hRepair
  rcases (SymbolMap.mem_insert_iff hNew).mp he with rfl | he
  · cases hRepair.symm.trans (hRow hKind)
  · exact h e he hKind hRepair

end Frame

section Steps

theorem watched_substitute : (t.substitute s row).Watched none := by
  intro e he hKind hRepair
  refine .inl (List.mem_append.mpr (.inl (List.mem_reverse.mpr ?_)))
  exact mem_negativeRestricted_iff.mpr ⟨e.2, he, hKind, lt_zero_of_needsRepair hRepair⟩

theorem watched_eliminate : (t.eliminate leaving row entering).Watched none :=
  watched_substitute.touch

theorem keys_touch_eliminate (hNew : ∀ b ∈ t.rows.keys, b.id ≠ entering.id) :
    ∀ b ∈ ((t.eliminate leaving row entering).touch entering).rows.keys, b.id ≠ entering.id := by
  intro b hb
  rw [rows_touch, keys_eliminate] at hb
  exact hNew b (mem_keys_eraseRow hb).1

/-- A pivot overlooks the row that it inserts, and no other row. -/
theorem watched_pivot (hNew : ∀ b ∈ t.rows.keys, b.id ≠ entering.id) :
    (t.pivot leaving row entering).Watched
      (some (entering, (row.exchange leaving entering).constant)) := by
  intro e he hKind hRepair
  rcases (SymbolMap.mem_insert_iff (keys_touch_eliminate hNew)).mp he with rfl | he
  · exact .inr rfl
  · exact (watched_eliminate.touch.weaken) e he hKind hRepair

theorem watched_pivot_of_not_needsRepair (hNew : ∀ b ∈ t.rows.keys, b.id ≠ entering.id)
    (hRow : needsRepair (row.exchange leaving entering) = false) :
    (t.pivot leaving row entering).Watched none :=
  watched_eliminate.touch.insertRow (keys_touch_eliminate hNew) fun _ => hRow

theorem watched_install (hNew : ∀ b ∈ t.rows.keys, b.id ≠ s.id)
    (hRow : s.isExternal = false → needsRepair (row.solveFor s) = false) :
    (t.install row s).Watched none := by
  refine watched_substitute.touch.insertRow (fun b hb => hNew b ?_) hRow
  rwa [rows_touch, keys_substitute] at hb

/-- A row that a move of its constant takes below zero is queued by the move. -/
theorem Watched.addToBasic (h : t.Watched o) {v : α} (hRow : (s, row) ∈ t.rows.entries) :
    (t.addToBasic s row v).Watched o := by
  have hQueue : t.infeasible ⊆ (t.addToBasic s row v).infeasible := by
    unfold Tableau.addToBasic
    dsimp only
    split
    · exact List.subset_cons_self _ _
    · exact List.Subset.refl _
  intro e he hKind hRepair
  rcases (mem_addToBasic_iff hRow).mp he with rfl | ⟨he, _⟩
  · left
    unfold Tableau.addToBasic
    dsimp only
    rw [if_pos (lt_zero_of_needsRepair hRepair)]
    exact List.mem_cons_self
  · exact (h e he hKind hRepair).imp_left fun hMem => hQueue hMem

theorem Watched.moveMarker (h : t.Watched o) {δ : α} : (t.moveMarker s δ).Watched o := by
  intro e he hKind hRepair
  obtain ⟨d, hd, hMoved⟩ := SymbolMap.mem_mapValues_iff.mp he
  cases hMoves : !(d.2.coefficient s == 0) with
  | false =>
    have hSame : e = d := by
      rw [hMoved]
      simp [hMoves]
    rw [hSame] at hKind hRepair ⊢
    exact (h d hd hKind hRepair).imp_left (List.mem_append_right _)
  | true =>
    have hCells : e.2.coefficient s = d.2.coefficient s := by
      rw [hMoved]
      dsimp only
      split <;> rfl
    refine .inl (List.mem_append_left _ (List.mem_reverse.mpr (List.mem_filterMap.mpr ⟨e, he, ?_⟩)))
    refine if_pos ?_
    dsimp only
    rw [hCells, hMoves, hKind, decide_eq_true (lt_zero_of_needsRepair hRepair)]
    rfl

theorem Watched.shiftEdit (h : t.Watched o) (hDistinct : Set.InjOn Symbol.id issued)
    (hSolved : t.Solved issued) {tag : Tag} (hTag : ∀ x ∈ tag.symbols, x ∈ issued) (δ : α) :
    (t.shiftEdit tag δ).Watched o := by
  rcases t.shiftEdit_cases tag δ with ⟨row, hGet, hShift⟩ | ⟨x, hx, row, hGet, hShift⟩ |
    ⟨_, hShift⟩ <;> rw [hShift]
  · exact h.addToBasic (hSolved.mem_of_get? hDistinct (hTag _ tag.marker_mem_symbols) hGet)
  · have hMem : x ∈ tag.symbols := List.mem_cons_of_mem _ (Option.mem_toList.mpr hx)
    exact h.addToBasic (hSolved.mem_of_get? hDistinct (hTag x hMem) hGet)
  · exact h.moveMarker

end Steps

/-- Whatever the queue overlooks is the symbol that one of these steps has let in, with the value that it
entered with. -/
def Overlooks (t : Tableau α) (steps : List (Step α)) : Prop :=
  ∃ o : Option (Symbol × α), (∀ e ∈ o, e ∈ steps.filterMap Step.entry?) ∧ t.Watched o

variable {steps last : List (Step α)}

theorem Watched.overlooks (h : t.Watched none) (steps : List (Step α)) : t.Overlooks steps :=
  ⟨none, nofun, h⟩

theorem Overlooks.extend (h : t.Overlooks steps) (more : List (Step α)) :
    t.Overlooks (steps ++ more) := by
  obtain ⟨o, ho, hWatched⟩ := h
  refine ⟨o, fun e he => ?_, hWatched⟩
  rw [List.filterMap_append]
  exact List.mem_append_left _ (ho e he)

theorem Overlooks.of_watched (h : t.Overlooks steps) (hWatched : ∀ o, t.Watched o → u.Watched o) :
    u.Overlooks steps := by
  obtain ⟨o, ho, hOld⟩ := h
  exact ⟨o, ho, hWatched o hOld⟩

/-- The last step has let in what is overlooked. -/
theorem Watched.overlooks_entry {step : Step α} {e : Symbol × α} (h : t.Watched (some e))
    (hEntry : step.entry? = some e) : t.Overlooks (steps ++ [step]) := by
  refine ⟨some e, fun d hd => ?_, h⟩
  obtain rfl := Option.some.inj hd
  rw [List.filterMap_append]
  exact List.mem_append_right _ (List.mem_filterMap.mpr ⟨step, List.mem_singleton_self _, hEntry⟩)

/-- Dropping a marker takes a row out, and a substitution queues what is below zero after it. -/
theorem Overlooks.dropMarker? (h : t.Overlooks steps) (hDrop : t.dropMarker? s = some u) :
    u.Overlooks steps := by
  rw [Tableau.dropMarker?] at hDrop
  split at hDrop
  · obtain rfl := Option.some.inj hDrop
    exact h.of_watched fun _ hw => hw.eraseRow
  · obtain ⟨⟨leaving, row⟩, _, rfl⟩ := Option.map_eq_some_iff.mp hDrop
    exact watched_eliminate.overlooks steps

section Primal

omit [Scalar α] in
theorem Solved.cell_nonbasic (h : t.Solved issued) (hRow : (leaving, row) ∈ t.rows.entries)
    (hEntering : entering ∈ row.cells.keys) : ∀ b ∈ t.rows.keys, b.id ≠ entering.id :=
  fun b hb => ((h.nonbasic b hb).rows _ hRow entering hEntering).symm

theorem overlooks_optimizeWithin {goal : Goal} {limit : Nat} (budget : Nat)
    (hSolved : t.Solved issued) (h : t.Overlooks steps) :
    (optimizeWithin goal limit budget t).state.Overlooks (steps ++ primalSteps goal budget t) := by
  refine (primal_trace (P := fun steps u => u.Solved issued ∧ u.Overlooks steps) ?_ budget steps
    ⟨hSolved, h⟩).2
  rintro steps u entering leaving row ⟨hSolved, _⟩ hEntering hLeaving
  have hRow := (mem_rows_of_leavingRow? hLeaving).1
  exact ⟨hSolved.pivot_of_issued hRow (hSolved.entering_mem hEntering),
    (watched_pivot (hSolved.entering_nonbasic hEntering)).overlooks_entry rfl⟩

end Primal

section Dual

variable [SignRules α] (hDistinct : Set.InjOn Symbol.id issued)
include hDistinct

/-- A dual pivot starts from a row below zero and a rising cell, so the inserted row is not below
zero. -/
theorem watched_dual_step {rest : List Symbol} (hSolved : t.Solved issued)
    (hOrderly : t.Orderly issued)
    (hNext : nextViolated? t.rows t.infeasible = some (leaving, row, rest))
    (hEntering : ({ t with infeasible := rest } : Tableau α).dualEntering? row = some entering) :
    (({ t with infeasible := rest } : Tableau α).pivot leaving row entering).Watched none := by
  obtain ⟨hMem, _, hGet, hRepair⟩ := nextViolated?_eq_some hNext
  obtain ⟨c, hCell, hRising⟩ := mem_cells_of_dualEntering? hEntering
  have hRow := hSolved.mem_of_get? hDistinct (hOrderly leaving hMem).1 hGet
  have hNew := hSolved.cell_nonbasic hRow (SymbolMap.mem_keys_of_mem hCell)
  refine watched_pivot_of_not_needsRepair hNew (needsRepair_eq_false ?_)
  rw [Row.constant_exchange_of_get? (hNew leaving (SymbolMap.mem_keys_of_mem hRow))
    (SymbolMap.get?_of_mem hCell)]
  exact SignRules.not_lt_zero_of_rising (lt_zero_of_needsRepair hRepair) hRising

theorem watched_dualOptimize {limit : Nat} (hSolved : t.Solved issued) (hOrderly : t.Orderly issued)
    (h : t.Watched o) (hOk : t.dualOptimize limit = ⟨.ok (), u⟩) :
    u.Watched o ∧ u.infeasible = [] := by
  have hRun := dualOptimizeWithin_induction
    (P := fun v => v.Solved issued ∧ v.Orderly issued ∧ v.Watched o) ?_ ⟨hSolved, hOrderly, h⟩ hOk
  · obtain ⟨v, ⟨_, _, hWatched⟩, hNone, rfl⟩ := hRun
    refine ⟨fun e he hKind hRepair => .inr ((hWatched e he hKind hRepair).resolve_left fun hMem => ?_),
      rfl⟩
    cases (nextViolated?_eq_none hNone hMem (SymbolMap.get?_of_mem he)).symm.trans hRepair
  · rintro v leaving row rest entering ⟨hSolved, hOrderly, _⟩ hNext hEntering
    obtain ⟨hMem, hRest, hGet, _⟩ := nextViolated?_eq_some hNext
    obtain ⟨c, hCell, _⟩ := mem_cells_of_dualEntering? hEntering
    have hRow := hSolved.mem_of_get? hDistinct (hOrderly leaving hMem).1 hGet
    have hPopped : ({ v with infeasible := rest } : Tableau α).Solved issued :=
      hSolved.mono rfl rfl fun _ hr => hr
    exact ⟨hPopped.pivot hRow (SymbolMap.mem_keys_of_mem hCell),
      (hOrderly.requeue hRest).pivot hPopped,
      (watched_dual_step hDistinct hSolved hOrderly hNext hEntering).weaken⟩

theorem overlooks_settle {limit : Nat} (hSolved : t.Solved issued) (hOrderly : t.Orderly issued)
    (h : t.Overlooks steps) (hOk : t.settle limit = ⟨.ok (), u⟩) :
    u.Overlooks (steps ++ settleSteps limit t) ∧ u.infeasible = [] := by
  have hEvolves := evolves_optimize hDistinct .primary limit hSolved hOrderly
  have hPrimal : (t.optimize .primary limit).state.Overlooks _ :=
    overlooks_optimizeWithin limit hSolved h
  rw [settle] at hOk
  rw [settleSteps, ← List.append_assoc]
  generalize t.optimize .primary limit = pass at hEvolves hPrimal hOk
  obtain ⟨result, v⟩ := pass
  cases result with
  | error cause => cases hOk
  | ok _ =>
    obtain ⟨o, ho, hWatched⟩ := hPrimal
    obtain ⟨hRepaired, hQueue⟩ :=
      watched_dualOptimize hDistinct hEvolves.solved hEvolves.orderly hWatched hOk
    exact ⟨Overlooks.extend ⟨o, ho, hRepaired⟩ _, hQueue⟩

end Dual

section PhaseOne

variable {fresh : Symbol}

theorem Overlooks.retired (h : t.Overlooks steps) (hDistinct : Set.InjOn Symbol.id issued)
    (hSolved : t.Solved issued) (hFresh : fresh ∈ issued) (hRetires : t.Retires fresh last u) :
    u.Overlooks (steps ++ last) := by
  cases hRetires with
  | struck _ => exact (h.of_watched fun _ hw => hw.strike).extend _
  | erased _ => exact (h.of_watched fun _ hw => hw.eraseRow).extend _
  | @exchanged row entering hGet hPivotable =>
    have hRow := hSolved.mem_of_get? hDistinct hFresh hGet
    have hKey : entering ∈ row.cells.keys := List.mem_of_find?_eq_some hPivotable
    have hPivot : (t.pivot fresh row entering).Overlooks
        (steps ++ [.pivot .retirement fresh row entering]) :=
      (watched_pivot (hSolved.cell_nonbasic hRow hKey)).overlooks_entry rfl
    have hStruck : ((t.pivot fresh row entering).strike fresh).Overlooks _ :=
      (hPivot.of_watched fun _ hw => hw.strike).extend [.strike fresh]
    rwa [List.append_assoc] at hStruck

/-- Phase one starts from a row that is not below zero. -/
theorem overlooks_insertArtificially (limit : Nat) (hDistinct : Set.InjOn Symbol.id issued)
    (hStart : (t.phaseOneStart fresh row).Solved issued) (hOrderly : t.Orderly issued)
    (hFresh : fresh ∈ issued) (hNew : ∀ b ∈ t.rows.keys, b.id ≠ fresh.id)
    (hRow : ¬ row.constant < 0) (h : t.Overlooks steps) {verdict : Bool}
    (hOk : t.insertArtificially limit fresh row = ⟨.ok verdict, u⟩) :
    u.Overlooks (steps ++ t.phaseOneSteps limit fresh row) := by
  have hInserted : (t.phaseOneStart fresh row).Overlooks (steps ++ [.start fresh row]) := by
    refine (h.of_watched fun o hw => ?_).extend _
    have hWatched : (t.insertRow fresh row).Watched o :=
      hw.insertRow hNew fun _ => needsRepair_eq_false hRow
    exact hWatched.mono rfl rfl
  have hPass : ((t.phaseOneStart fresh row).optimize .artificial limit).state.Overlooks _ :=
    overlooks_optimizeWithin limit hStart hInserted
  have hEvolves := evolves_optimize hDistinct .artificial limit hStart (hOrderly.mono rfl)
  obtain ⟨v, last, rfl, hSteps, hRetires⟩ := retires_of_insertArtificially hOk
  have hBare : ({ ((t.phaseOneStart fresh row).optimize .artificial limit).state with
      artificial := none } : Tableau α).Solved issued :=
    hEvolves.solved.mono rfl rfl fun _ hr => by cases hr
  have hQuiet : ({ ((t.phaseOneStart fresh row).optimize .artificial limit).state with
      artificial := none } : Tableau α).Overlooks _ := hPass.of_watched fun _ hw => hw.mono rfl rfl
  have hEnd := hQuiet.retired hDistinct hBare hFresh hRetires
  rw [List.append_assoc, List.append_assoc] at hEnd
  exact hSteps ▸ hEnd

end PhaseOne

end Tableau

end SoftSimplex
