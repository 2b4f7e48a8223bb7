import SoftSimplex.Proofs.Passes

/-!
# Insertion by a phase-one pass

While the pass runs, its objective and the fresh symbol have one value at every solution. A pass
that comes down to zero therefore leaves the fresh symbol at zero, and striking it leaves exactly
the solutions at which the inserted row is zero. A pass that does not come down to zero shows that
no admissible assignment makes the row zero.
-/

namespace SoftSimplex.Tableau
set_option autoImplicit false

/-- A slack symbol with a number of its own. -/
structure Fresh (issued : Set Symbol) (fresh : Symbol) : Prop where
  slack : fresh.kind = .slack
  new : ∀ s ∈ issued, s.id ≠ fresh.id

variable {issued : Set Symbol} {t u v : Tableau Rat} {row : Row Rat} {fresh entering : Symbol}
  {a : Nat → Rat}

theorem Fresh.distinct (hFresh : Fresh issued fresh) (hDistinct : Set.InjOn Symbol.id issued) :
    Set.InjOn Symbol.id (insert fresh issued) := by
  rintro s (rfl | hs) u (rfl | hu) hId
  · rfl
  · exact absurd hId.symm (hFresh.new u hu)
  · exact absurd hId (hFresh.new s hs)
  · exact hDistinct hs hu hId

theorem Fresh.restricted (hFresh : Fresh issued fresh) : fresh.isExternal = false := by
  simp [Symbol.isExternal, hFresh.slack]

theorem Fresh.not_dummy (hFresh : Fresh issued fresh) : fresh.isDummy = false := by
  simp [Symbol.isDummy, hFresh.slack]

theorem Fresh.avoids (hFresh : Fresh issued fresh) {r : Row Rat} (hr : r.AllColumns (· ∈ issued)) :
    r.AllColumns fun c => c.id ≠ fresh.id :=
  fun c hc => hFresh.new c (hr c hc)

theorem Fresh.admissible (hFresh : Fresh issued fresh) (ha : Admissible issued a) :
    Admissible (insert fresh issued) (Function.update a fresh.id 0) := by
  rintro s (rfl | hs)
  · rw [Function.update_self]
    exact ⟨fun _ => le_rfl, fun _ => rfl⟩
  · rw [Function.update_of_ne (hFresh.new s hs)]
    exact ha s hs

theorem AllRows.withArtificial {P : Row Rat → Prop} (h : t.AllRows P) (hRow : P row) :
    AllRows { t with artificial := some row } P where
  rows := h.rows
  objective := h.objective
  artificial _ hr := Option.some.inj hr ▸ hRow

section Start

variable (h : t.Regular issued) (hRow : t.Addable issued row) (hFresh : Fresh issued fresh)

include h hFresh in
theorem Regular.keys_ne_fresh : ∀ b ∈ t.rows.keys, b.id ≠ fresh.id :=
  fun b hb => hFresh.new b (h.solved.keys b hb)

include h hFresh in
theorem Regular.satisfies_phaseOneStart : (t.phaseOneStart fresh row).Satisfies a ↔
    a fresh.id = row.value a ∧ t.Satisfies a :=
  satisfies_insertRow (h.keys_ne_fresh hFresh)

include h hRow hFresh

theorem Regular.phaseOneStart (hKinds : row.AllColumns fun c => c.isExternal = false) :
    (t.phaseOneStart fresh row).Regular (insert fresh issued) := by
  have hOwn : row.AllColumns fun c => c.id ≠ fresh.id :=
    hFresh.avoids (hRow.columns.imp fun _ hc => hc.1)
  have hAbsent : t.AllRows fun r => r.AllColumns fun c => c.id ≠ fresh.id :=
    h.solved.columns.imp fun _ hr => hFresh.avoids hr
  have hSolved : (t.insertRow fresh row).Solved (insert fresh issued) :=
    (h.solved.weaken (Set.subset_insert _ _)).insertRow (Set.mem_insert _ _) hAbsent
      fun c hc => ⟨.inr (hRow.columns c hc).1, hOwn c hc, (hRow.columns c hc).2⟩
  refine ⟨⟨hSolved.keys, hSolved.columns.withArtificial ?_, fun b hb => ?_⟩,
    (h.reduced.insertRow hRow.reduced).withArtificial hRow.reduced, ?_⟩
  · exact hRow.columns.imp fun c hc => .inr hc.1
  · refine (hSolved.nonbasic b hb).withArtificial ?_
    rcases mem_keys_insertRow hb with rfl | hb
    · exact hOwn
    · exact hRow.columns.imp fun c hc => hc.2 b hb
  · have hSeparate := h.separate.insertRow (h.keys_ne_fresh hFresh) fun _ => hKinds
    exact ⟨hSeparate.rows, hSeparate.objective, fun r hr => Option.some.inj hr ▸ hKinds⟩

theorem Regular.exists_start_solution (a : Nat → Rat) :
    ∃ b, (t.phaseOneStart fresh row).Satisfies b ∧ b fresh.id = row.value a ∧
      ∀ n, n ≠ fresh.id → b n = t.complete a n := by
  have hOwn : row.AllColumns fun c => c.id ≠ fresh.id :=
    hFresh.avoids (hRow.columns.imp fun _ hc => hc.1)
  have hValue : row.value (t.complete a) = row.value a :=
    value_complete fun b hb => hRow.columns.imp fun _ hc => hc.2 b hb
  refine ⟨Function.update (t.complete a) fresh.id (row.value a), ?_, Function.update_self .., ?_⟩
  · refine (h.satisfies_phaseOneStart hFresh).mpr ⟨?_, ?_⟩
    · rw [Function.update_self, ← hValue]
      exact Row.value_congr fun c hc => (Function.update_of_ne (hOwn c hc) _ _).symm
    · exact (satisfies_update _ (h.keys_ne_fresh hFresh)
        fun e he => hFresh.avoids (h.solved.columns.rows e he)).mpr h.solved.satisfies_complete
  · exact fun n hn => Function.update_of_ne hn _ _

end Start

/-- How a successful phase-one pass over a row ends. -/
structure Minimised (issued : Set Symbol) (t : Tableau Rat) (fresh : Symbol) (row : Row Rat)
    (v : Tableau Rat) : Prop where
  kept : Kept (insert fresh issued) (t.phaseOneStart fresh row) v
  feasible : v.Feasible
  minimal : v.entering? .artificial = none

section End

variable (h : t.Regular issued) (hRow : t.Addable issued row) (hFresh : Fresh issued fresh)
  (hDistinct : Set.InjOn Symbol.id issued) (hMin : Minimised issued t fresh row v)

include h hFresh hMin in
theorem Minimised.objective : ∃ r, v.artificial = some r ∧ ∀ b, v.Satisfies b →
    r.value b = b fresh.id := by
  have hStart : ∀ b, v.Satisfies b → v.artificial.map (Row.value b) = some (b fresh.id) := by
    intro b hb
    have hb := (hMin.kept.meaning.rows b).mp hb
    rw [hMin.kept.meaning.artificial b hb, ((h.satisfies_phaseOneStart hFresh).mp hb).1]
    rfl
  have hSome := hStart (v.complete 0) hMin.kept.regular.solved.satisfies_complete
  obtain ⟨r, hr, _⟩ := Option.map_eq_some_iff.mp hSome
  refine ⟨r, hr, fun b hb => ?_⟩
  have hValue := hStart b hb
  rw [hr] at hValue
  exact Option.some.inj hValue

include h hFresh hMin in
theorem Minimised.constant_eq {r : Row Rat} (hr : v.artificial = some r) :
    r.constant = v.complete 0 fresh.id := by
  obtain ⟨q, hq, hValue⟩ := hMin.objective h hFresh
  obtain rfl : r = q := Option.some.inj (hr.symm.trans hq)
  rw [← hValue _ hMin.kept.regular.solved.satisfies_complete, r.constant_eq_value]
  exact (value_complete fun b hb =>
    (hMin.kept.regular.solved.nonbasic b hb).artificial r hr).symm

include h hFresh hMin in
theorem Minimised.fresh_constant {r f : Row Rat} (hr : v.artificial = some r)
    (hf : (fresh, f) ∈ v.rows.entries) : f.constant = r.constant := by
  rw [hMin.constant_eq h hFresh hr, complete_of_mem hf, f.constant_eq_value]

include h hFresh hDistinct hMin in
theorem Minimised.constant_nonneg {r : Row Rat} (hr : v.artificial = some r) :
    0 ≤ r.constant := by
  rw [hMin.constant_eq h hFresh hr]
  exact hMin.feasible.complete_nonneg hMin.kept.regular.solved (hFresh.distinct hDistinct)
    (Set.mem_insert _ _) hFresh.restricted

include h hRow hFresh hMin in
theorem Minimised.fresh_value {f : Row Rat} (hf : (fresh, f) ∈ v.rows.entries) (a : Nat → Rat) :
    ∃ b, f.value b = row.value a ∧ ∀ n, n ≠ fresh.id → b n = t.complete a n := by
  obtain ⟨b, hb, hValue, hOthers⟩ := h.exists_start_solution hRow hFresh a
  refine ⟨b, ?_, hOthers⟩
  rw [← hValue]
  exact ((hMin.kept.meaning.rows b).mpr hb _ hf).symm

include h hRow hFresh hMin in
theorem Minimised.not_constant {f : Row Rat} (hf : (fresh, f) ∈ v.rows.entries) {j : Symbol}
    (hj : j ∈ row.cells.keys) : f.isConstant = false := by
  by_contra hConstant
  have hNil : f.cells.entries = [] := by simpa [Row.isConstant, SymbolMap.isEmpty] using hConstant
  have hValue : ∀ a, row.value a = f.constant := by
    intro a
    obtain ⟨b, hb, _⟩ := hMin.fresh_value h hRow hFresh hf a
    rw [← hb]
    exact Row.value_of_vanish fun c hc => by simp [SymbolMap.keys, hNil] at hc
  apply hRow.reduced.coefficient_ne_zero hj
  rw [Row.coefficient_eq_value_sub, hValue, hValue, sub_self]

include h hRow hFresh hDistinct hMin in
/-- With pinned dummies the row of the fresh symbol has a column other than the dummies. -/
theorem Minimised.exists_not_dummy (hPinned : t.Pinned) {f : Row Rat}
    (hf : (fresh, f) ∈ v.rows.entries) {j : Symbol} (hj : j ∈ row.cells.keys)
    (hKind : j.isDummy = false) : ∃ c ∈ f.cells.keys, c.isDummy = false := by
  by_contra hDummies
  have hDummy : ∀ c ∈ f.cells.keys, c.isDummy = true := by
    intro c hc
    by_contra hNot
    exact hDummies ⟨c, hc, by simpa using hNot⟩
  have hIssued := (hRow.columns j hj).1
  have hValue : ∀ a, (∀ c ∈ issued, c.isDummy = true → a c.id = 0) → row.value a = f.constant := by
    intro a ha
    obtain ⟨b, hb, hOthers⟩ := hMin.fresh_value h hRow hFresh hf a
    rw [← hb]
    refine Row.value_of_vanish fun c hc => ?_
    have hc' : c ∈ issued := by
      rcases hMin.kept.regular.solved.columns.rows _ hf c hc with rfl | hc'
      · have hc := hDummy c hc
        rw [hFresh.not_dummy] at hc
        cases hc
      · exact hc'
    refine (hOthers c.id (hFresh.new c hc')).trans ?_
    exact hPinned.complete_eq_zero h.solved hDistinct ha hc' (hDummy c hc)
  have hZero : row.value 0 = f.constant := hValue 0 fun _ _ _ => rfl
  have hOne : row.value (Function.update 0 j.id 1) = f.constant := by
    refine hValue _ fun c hc hcd => Function.update_of_ne (fun hId => ?_) _ _
    rw [hDistinct hc hIssued hId, hKind] at hcd
    cases hcd
  apply hRow.reduced.coefficient_ne_zero hj
  rw [Row.coefficient_eq_value_sub, hOne, hZero, sub_self]

include h hRow hFresh hDistinct hMin in
/-- A pass that stops above zero leaves no admissible assignment at which the row is zero. -/
theorem Minimised.ne_zero_of_admissible (hVerdict : v.reachedZero = false) (hSat : t.Satisfies a)
    (ha : Admissible issued a) : row.value a ≠ 0 := by
  intro hZero
  obtain ⟨r, hr, hValue⟩ := hMin.objective h hFresh
  have hPositive : 0 < r.constant := by
    refine lt_of_le_of_ne (hMin.constant_nonneg h hFresh hDistinct hr) (Ne.symm ?_)
    simpa [reachedZero, hr, Scalar.negligible] using hVerdict
  have hRows : ∀ r : Row Rat, r.AllColumns (· ∈ issued) →
      r.value (Function.update a fresh.id 0) = r.value a := fun r hr =>
    Row.value_congr fun c hc => Function.update_of_ne (hFresh.avoids hr c hc) _ _
  have hb : v.Satisfies (Function.update a fresh.id 0) := by
    refine (hMin.kept.meaning.rows _).mpr ((h.satisfies_phaseOneStart hFresh).mpr ⟨?_, ?_⟩)
    · rw [Function.update_self, hRows row (hRow.columns.imp fun _ hc => hc.1), hZero]
    · exact (satisfies_update _ (h.keys_ne_fresh hFresh)
        fun e he => hFresh.avoids (h.solved.columns.rows e he)).mpr hSat
  have hLe : r.constant ≤ r.value (Function.update a fresh.id 0) := by
    refine constant_le_value_of_admissible
      (hMin.kept.regular.solved.columns.artificial r hr)
      (hMin.kept.regular.separate.artificial r hr) (fun e he hKind => ?_) (hFresh.admissible ha)
    refine nonneg_of_enteringFor? ?_ he hKind
    simpa [entering?, objectiveFor?, hr] using hMin.minimal
  rw [hValue _ hb, Function.update_self] at hLe
  exact absurd hPositive (not_lt.mpr hLe)

end End

section Retire

theorem verdict_of_retire {verdict : Bool} (h : t.retire fresh verdict = (true, u)) :
    verdict = true := by
  rw [retire] at h
  split at h
  · exact (Prod.mk.inj h).1
  · split at h
    · exact (Prod.mk.inj h).1
    · split at h
      · cases h
      · exact (Prod.mk.inj h).1

variable (hDistinct : Set.InjOn Symbol.id issued) (h : t.Regular issued) (hIssued : fresh ∈ issued)
  (hSlack : fresh.kind = .slack)

include h in
theorem Regular.feasible_pivot_of_zero (hPivot : t.Exchangeable fresh row entering)
    (hFeasible : t.Feasible) (hZero : row.constant = 0) :
    (t.pivot fresh row entering).Feasible := by
  have hConstant : (row.exchange fresh entering).constant = 0 := by
    rw [Row.constant_exchange (h.solved.leaving_coefficient hPivot.row_mem)
      (h.entering_coefficient hPivot), hZero, zero_div, neg_zero]
  have hEliminate : (t.eliminate fresh row entering).Feasible := by
    refine (feasible_substitute fun e he hKind => ?_).mono (rows_touch _ _)
    rw [hConstant, mul_zero, add_zero]
    exact hFeasible e (SymbolMap.mem_erase_iff.mp he).1 hKind
  refine (hEliminate.mono (rows_touch _ _)).insertRow ?_ fun _ => hConstant.ge
  rw [rows_touch]
  exact h.solved.entering_new hPivot.toCrossing

include hDistinct h hIssued hSlack in
/-- Retiring the fresh symbol after a positive verdict takes at most one pivot, and then strikes a
symbol that is not basic. -/
theorem Regular.retire_eq (hOrderly : t.Orderly issued) (hFeasible : t.Feasible)
    (hNone : t.artificial = none)
    (hBasic : ∀ f, (fresh, f) ∈ t.rows.entries → f.constant = 0 ∧ f.isConstant = false)
    {verdict : Bool} (hRetire : t.retire fresh verdict = (true, u)) :
    ∃ w, Kept issued t w ∧ w.Feasible ∧ w.artificial = none ∧
      (∀ b ∈ w.rows.keys, b.id ≠ fresh.id) ∧ u = w.strike fresh := by
  rw [retire] at hRetire
  split at hRetire
  · rename_i hGet
    cases hRetire
    exact ⟨t, .refl h hOrderly, hFeasible, hNone, SymbolMap.get?_eq_none_iff.mp hGet, rfl⟩
  · rename_i f hGet
    have hMem := h.solved.mem_of_get? hDistinct hIssued hGet
    obtain ⟨hZero, hCells⟩ := hBasic f hMem
    rw [hCells] at hRetire
    simp only [Bool.false_eq_true, if_false] at hRetire
    split at hRetire
    · cases hRetire
    · rename_i entering hPivotable
      cases hRetire
      have hKind := Symbol.isDummy_of_isPivotable (List.find?_some hPivotable)
      have hPivot : t.Exchangeable fresh f entering :=
        ⟨⟨hMem, List.mem_of_find?_eq_some hPivotable⟩, by simp [Symbol.isExternal, hSlack], hKind⟩
      refine ⟨_, (Kept.refl h hOrderly).pivot hDistinct hPivot,
        h.feasible_pivot_of_zero hPivot hFeasible hZero, artificial_eq_none artificial_pivot hNone,
        h.solved.keys_pivot hPivot.toCrossing, rfl⟩

end Retire

theorem Regular.strike (h : t.Regular issued) (hNone : t.artificial = none) :
    (t.strike fresh).Regular issued where
  solved := h.solved.strike hNone
  reduced := h.reduced.strike (fun _ hr => hr.remove) hNone
  separate := h.separate.strike hNone

/-- A row has been added, and the tableau is ready to be settled. -/
structure Placed (issued : Set Symbol) (t u : Tableau Rat) (row : Row Rat) : Prop where
  regular : u.Regular issued
  orderly : u.Orderly issued
  feasible : u.Feasible
  artificial : u.artificial = none
  absorbs : t.Absorbs u row
  pinned : t.Pinned → u.Pinned

/-- With the fresh symbol at zero, the start of the pass says that the row is zero. -/
theorem Regular.absorbs_strike {w : Tableau Rat} (h : t.Regular issued)
    (hRow : t.Addable issued row) (hFresh : Fresh issued fresh)
    (hStart : (t.phaseOneStart fresh row).SameMeaning v)
    (hRest : SameMeaning { v with artificial := none } w)
    (hNew : ∀ b ∈ w.rows.keys, b.id ≠ fresh.id) : t.Absorbs (w.strike fresh) row := by
  have hOwn : ∀ (a : Nat → Rat) (r : Row Rat), r.AllColumns (· ∈ issued) →
      r.value (Function.update a fresh.id 0) = r.value a := fun a r hr =>
    Row.value_congr fun c hc => Function.update_of_ne (hFresh.avoids hr c hc) _ _
  have hMeaning : ∀ a, w.Satisfies a ↔ (t.phaseOneStart fresh row).Satisfies a := fun a =>
    (hRest.rows a).trans (hStart.rows a)
  have hRows : ∀ a, (w.strike fresh).Satisfies a ↔ t.Satisfies a ∧ row.value a = 0 := by
    intro a
    rw [satisfies_strike hNew, hMeaning, h.satisfies_phaseOneStart hFresh, Function.update_self,
      hOwn a row (hRow.columns.imp fun _ hc => hc.1), satisfies_update _ (h.keys_ne_fresh hFresh)
        fun e he => hFresh.avoids (h.solved.columns.rows e he), and_comm, eq_comm]
  refine ⟨hRows, fun a ha => ?_, ?_⟩
  · have hSat : (t.phaseOneStart fresh row).Satisfies (Function.update a fresh.id 0) :=
      (hMeaning _).mp ((satisfies_strike hNew).mp ha)
    calc (w.strike fresh).objective.value a
        = w.objective.value (Function.update a fresh.id 0) := by
          rw [Row.value_update]
          exact (Row.value_remove w.objective a fresh).trans (by ring)
      _ = v.objective.value (Function.update a fresh.id 0) :=
          hRest.objective _ ((hStart.rows _).mpr hSat)
      _ = t.objective.value (Function.update a fresh.id 0) := hStart.objective _ hSat
      _ = t.objective.value a := hOwn a _ h.solved.columns.objective
  · have hInsert : (t.phaseOneStart fresh row).rows.entries.length = t.rows.entries.length + 1 :=
      SymbolMap.length_insert _ (SymbolMap.get?_eq_none_iff.mpr (h.keys_ne_fresh hFresh))
    exact (SymbolMap.length_mapValues _ _).trans (hRest.size.trans (hStart.size.trans hInsert))

section Insertion

variable (hDistinct : Set.InjOn Symbol.id issued) (h : t.Regular issued)
  (hOrderly : t.Orderly issued) (hFeasible : t.Feasible) (hRow : t.Addable issued row)
  (hKinds : row.AllColumns fun c => c.isExternal = false) (hConstant : 0 ≤ row.constant)
  (hFresh : Fresh issued fresh) {limit : Nat}
include hDistinct h hOrderly hFeasible hRow hKinds hConstant hFresh

theorem Regular.minimised {verdict : Bool}
    (hOk : t.insertArtificially limit fresh row = ⟨.ok verdict, u⟩) :
    ∃ v, Minimised issued t fresh row v ∧
      retire { v with artificial := none } fresh v.reachedZero = (verdict, u) := by
  have hOrderlyStart : (t.phaseOneStart fresh row).Orderly (insert fresh issued) :=
    fun s hs => ⟨.inr (hOrderly s hs).1, (hOrderly s hs).2⟩
  have hFeasibleStart : (t.phaseOneStart fresh row).Feasible :=
    (hFeasible.insertRow (h.keys_ne_fresh hFresh) fun _ => hConstant).mono rfl
  obtain ⟨hKept, hFeasible, _⟩ := optimize_keeps (hFresh.distinct hDistinct)
    .artificial limit (h.phaseOneStart hRow hFresh hKinds) hOrderlyStart hFeasibleStart
  rw [insertArtificially] at hOk
  dsimp only at hOk
  split at hOk
  · cases hOk
  · rename_i v hOptimize
    change (t.phaseOneStart fresh row).optimize .artificial limit = ⟨.ok (), v⟩ at hOptimize
    rw [hOptimize] at hKept hFeasible
    cases hOk
    exact ⟨v, ⟨hKept, hFeasible, entering?_of_optimizeWithin hOptimize⟩, rfl⟩

theorem Regular.placed_of_insertArtificially {j : Symbol} (hj : j ∈ row.cells.keys)
    (hOk : t.insertArtificially limit fresh row = ⟨.ok true, u⟩) :
    Placed (insert fresh issued) t u row := by
  obtain ⟨v, hMin, hRetire⟩ := h.minimised hDistinct hOrderly hFeasible hRow hKinds hConstant
    hFresh hOk
  obtain ⟨r, hr, _⟩ := hMin.objective h hFresh
  have hZero : r.constant = 0 := by
    simpa [reachedZero, hr, Scalar.negligible] using verdict_of_retire hRetire
  obtain ⟨w, hKept, hFeasible, hNone, hNew, rfl⟩ :=
    (hMin.kept.regular.mono (u := { v with artificial := none }) rfl rfl (by simp)).retire_eq
      (hFresh.distinct hDistinct) (Set.mem_insert _ _) hFresh.slack hMin.kept.orderly
      (hMin.feasible.mono rfl) rfl
      (fun f hf => ⟨(hMin.fresh_constant h hFresh hr hf).trans hZero,
        hMin.not_constant h hRow hFresh hf hj⟩) hRetire
  refine ⟨hKept.regular.strike hNone, hKept.orderly, hFeasible.strike, hNone,
    h.absorbs_strike hRow hFresh hMin.kept.meaning hKept.meaning hNew, fun hPinned => ?_⟩
  have hStart : (t.phaseOneStart fresh row).Pinned := by
    refine (hPinned.insertRow (h.keys_ne_fresh hFresh) fun hKind => ?_).mono rfl
    rw [hFresh.not_dummy] at hKind
    cases hKind
  exact (hKept.pinned ((hMin.kept.pinned hStart).mono rfl)).strike

/-- A pass with a negative verdict shows that the row cannot be zero. -/
theorem Regular.ne_zero_of_insertArtificially (hPinned : t.Pinned)
    (hKindsIssued : ∀ s ∈ issued, s.isInvalid = false) {j : Symbol} (hj : j ∈ row.cells.keys)
    (hKind : j.isDummy = false) (hOk : t.insertArtificially limit fresh row = ⟨.ok false, u⟩)
    (hSat : t.Satisfies a) (ha : Admissible issued a) : row.value a ≠ 0 := by
  obtain ⟨v, hMin, hRetire⟩ := h.minimised hDistinct hOrderly hFeasible hRow hKinds hConstant
    hFresh hOk
  refine hMin.ne_zero_of_admissible h hRow hFresh hDistinct ?_ hSat ha
  cases hVerdict : v.reachedZero with
  | false => rfl
  | true =>
    exfalso
    rw [hVerdict, retire] at hRetire
    split at hRetire
    · cases hRetire
    · rename_i f hGet
      have hf : (fresh, f) ∈ v.rows.entries := hMin.kept.regular.solved.mem_of_get?
        (hFresh.distinct hDistinct) (Set.mem_insert _ _) hGet
      rw [hMin.not_constant h hRow hFresh hf hj] at hRetire
      simp only [Bool.false_eq_true, if_false] at hRetire
      split at hRetire
      · rename_i hNone
        obtain ⟨c, hc, hDummy⟩ := hMin.exists_not_dummy h hRow hFresh hDistinct hPinned hf hj hKind
        have hExternal := hMin.kept.regular.separate.rows _ hf hFresh.restricted c hc
        have hInvalid : c.isInvalid = false := by
          rcases hMin.kept.regular.solved.columns.rows _ hf c hc with rfl | hc
          · simp [Symbol.isInvalid, hFresh.slack]
          · exact hKindsIssued c hc
        have hPivotable := List.find?_eq_none.mp hNone c hc
        revert hDummy hExternal hInvalid hPivotable
        cases hk : c.kind <;>
          simp [Symbol.isDummy, Symbol.isExternal, Symbol.isInvalid, Symbol.isPivotable, hk]
      · cases hRetire

end Insertion

end SoftSimplex.Tableau
