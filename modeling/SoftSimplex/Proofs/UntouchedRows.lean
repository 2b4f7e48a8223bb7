import SoftSimplex.Proofs.EditShiftPass
import SoftSimplex.Proofs.PivotRuns

/-!
# A part of the tableau that a run of pivots leaves alone

If solutions can be mixed, some columns from one and the rest from another, no row joins the two
groups of columns. What is asked of one group then never reaches the other: a row of the quiet group is
not below zero and none of its columns lowers the objective, so no pivot of a pass has a reason there.
-/

namespace SoftSimplex.Tableau
set_option autoImplicit false

variable {issued : Set Symbol} {t u v : Tableau Rat} {row : Row Rat} {G : Set Nat}
  {leaving entering x : Symbol} {a b : Nat → Rat}

/-- The symbols with some numbers. -/
def numberedIn (G : Set Nat) : Set Symbol := {x | x.id ∈ G}

theorem SameRows.get?_eq (h : t.SameRows (numberedIn G) u) (hx : x.id ∈ G) :
    u.rows.get? x = t.rows.get? x := by
  cases hGet : t.rows.get? x with
  | some r =>
    obtain ⟨y, hId, hy⟩ := SymbolMap.exists_mem_of_get? hGet
    have hMem : (y, r) ∈ u.rows.entries := (h (y, r) (show y.id ∈ G from hId ▸ hx)).mpr hy
    rw [← SymbolMap.get?_congr u.rows hId]
    exact SymbolMap.get?_of_mem hMem
  | none =>
    refine SymbolMap.get?_eq_none_iff.mpr fun k hk hId => ?_
    obtain ⟨e, he, rfl⟩ := List.mem_map.mp hk
    have hOld := (h e (show e.1.id ∈ G from hId ▸ hx)).mp he
    exact SymbolMap.get?_eq_none_iff.mp hGet e.1 (SymbolMap.mem_keys_of_mem hOld) hId

theorem SameRows.value_eq (h : t.SameRows (numberedIn G) u) (hx : x.id ∈ G) :
    u.value x = t.value x := by
  rw [value, h.get?_eq hx, value]

theorem SameRows.mem_keys_iff (h : t.SameRows (numberedIn G) u) (hx : x.id ∈ G) :
    x ∈ u.rows.keys ↔ x ∈ t.rows.keys := by
  constructor
  · intro hKey
    obtain ⟨e, he, rfl⟩ := List.mem_map.mp hKey
    exact SymbolMap.mem_keys_of_mem ((h e hx).mp he)
  · intro hKey
    obtain ⟨e, he, rfl⟩ := List.mem_map.mp hKey
    exact SymbolMap.mem_keys_of_mem ((h e hx).mpr he)

section Mixing

/-- Some columns of one solution go with the other columns of any other. -/
def Mixes (G : Set Nat) (t : Tableau Rat) : Prop :=
  ∀ a b c : Nat → Rat, t.Satisfies a → t.Satisfies b → (∀ n ∈ G, c n = a n) →
    (∀ n ∉ G, c n = b n) → t.Satisfies c

theorem Mixes.compl (h : t.Mixes G) : t.Mixes Gᶜ := fun a b c ha hb hIn hOut =>
  h b a c hb ha (fun n hn => hOut n (not_not.mpr hn)) hIn

theorem Mixes.exists_mixture (h : t.Mixes G) (ha : t.Satisfies a) (hb : t.Satisfies b) :
    ∃ c, t.Satisfies c ∧ (∀ n ∈ G, c n = a n) ∧ ∀ n ∉ G, c n = b n := by
  classical
  have hIn : ∀ n ∈ G, G.piecewise a b n = a n := fun n hn => Set.piecewise_eq_of_mem _ _ _ hn
  have hOut : ∀ n ∉ G, G.piecewise a b n = b n := fun n hn => Set.piecewise_eq_of_notMem _ _ _ hn
  exact ⟨_, h a b _ ha hb hIn hOut, hIn, hOut⟩

/-- A row with columns of both groups would tell one solution from the other. -/
theorem Mixes.closed (h : t.Mixes G) (hRegular : t.Regular issued) : t.Closed (numberedIn G) := by
  intro e he hIn y hy
  by_contra hOut
  apply (hRegular.reduced.rows e he).coefficient_ne_zero hy
  obtain ⟨c, hMixed, hSame, hOther⟩ := h.exists_mixture
    (hRegular.solved.satisfies_complete (a := 0))
    (hRegular.solved.satisfies_complete (a := Function.update 0 y.id 1))
  have hCells : e.2.value c = e.2.value (Function.update 0 y.id 1) := by
    refine Row.value_congr fun z hz => ?_
    have hNonbasic : ∀ b ∈ t.rows.keys, b.id ≠ z.id := fun b hb =>
      ((hRegular.solved.nonbasic b hb).rows e he z hz).symm
    show c z.id = Function.update (0 : Nat → Rat) y.id 1 z.id
    by_cases hGroup : z.id ∈ G
    · have hne : z.id ≠ y.id := fun hId => hOut (show y.id ∈ G from hId ▸ hGroup)
      rw [hSame _ hGroup, complete_of_nonbasic hNonbasic, Function.update_of_ne hne]
    · rw [hOther _ hGroup, complete_of_nonbasic hNonbasic]
  have hRow : c e.1.id = e.2.value c := hMixed e he
  rw [hSame _ hIn, complete_of_mem he, hCells] at hRow
  rw [Row.coefficient_eq_value_sub, ← hRow, sub_self]

/-- With closed rows, the columns of a group follow from the free columns of the group. -/
theorem Closed.complete_congr (h : t.Closed (numberedIn G)) (hSame : ∀ n ∈ G, a n = b n) {n : Nat}
    (hn : n ∈ G) : t.complete a n = t.complete b n := by
  by_cases hBasic : ∃ e ∈ t.rows.entries, e.1.id = n
  · obtain ⟨e, he, rfl⟩ := hBasic
    rw [complete_of_mem he, complete_of_mem he]
    exact Row.value_congr fun c hc => hSame c.id (h e he hn c hc)
  · have hNonbasic : ∀ k ∈ t.rows.keys, k.id ≠ n := by
      intro k hk hId
      obtain ⟨e, he, rfl⟩ := List.mem_map.mp hk
      exact hBasic ⟨e, he, hId⟩
    rw [complete_of_nonbasic hNonbasic, complete_of_nonbasic hNonbasic, hSame n hn]

end Mixing

/-- The second tableau has the rows of the first one on a group of columns. The group is in none of
its other rows, nor in a phase-one objective, and weighs in the objective what it did. -/
structure Untouched (G : Set Nat) (t u : Tableau Rat) : Prop where
  rows : t.SameRows (numberedIn G) u
  outside : u.Closed (numberedIn Gᶜ)
  objective : ∀ x : Symbol, x.id ∈ G → u.objective.coefficient x = t.objective.coefficient x
  artificial : ∀ r ∈ u.artificial, r.AllColumns fun c => c.id ∉ G

theorem Untouched.refl (hOutside : t.Closed (numberedIn Gᶜ)) (hNone : t.artificial = none) :
    t.Untouched G t where
  rows := .of_rows_eq rfl
  outside := hOutside
  objective _ _ := rfl
  artificial r hr := by
    rw [hNone] at hr
    cases hr

section Steps

variable (h : t.Untouched G u)
include h

theorem Untouched.congr (hRows : v.rows = u.rows) (hObjective : v.objective = u.objective)
    (hArtificial : ∀ r ∈ v.artificial, r ∈ u.artificial) : t.Untouched G v where
  rows := h.rows.trans (.of_rows_eq hRows)
  outside := h.outside.of_sameRows (.of_rows_eq hRows)
  objective := hObjective ▸ h.objective
  artificial r hr := h.artificial r (hArtificial r hr)

theorem Untouched.touch : t.Untouched G (u.touch x) :=
  h.congr (rows_touch u x) (objective_touch u x) fun _ hr => artificial_touch u x ▸ hr

theorem Untouched.eraseRow (hKey : x ∈ u.rows.keys) (hx : x.id ∉ G) :
    t.Untouched G (u.eraseRow x) where
  rows := h.rows.trans (sameRows_eraseRow hKey hx)
  outside e he := h.outside e (SymbolMap.mem_erase_iff.mp he).1
  objective := h.objective
  artificial := h.artificial

theorem Untouched.insertRow (hNew : ∀ b ∈ u.rows.keys, b.id ≠ x.id) (hx : x.id ∉ G)
    (hRow : row.AllColumns fun c => c.id ∉ G) : t.Untouched G (u.insertRow x row) where
  rows := h.rows.trans (sameRows_insertRow hNew hx)
  outside e he hOut := by
    rcases (SymbolMap.mem_insert_iff hNew).mp he with rfl | he
    · exact hRow
    · exact h.outside e he hOut
  objective := h.objective
  artificial := h.artificial

variable (hInside : t.Closed (numberedIn G))
include hInside

theorem Untouched.shuns (hx : x.id ∉ G) : u.Shuns (numberedIn G) x := fun e he hIn y hy hId =>
  hx (hId ▸ hInside.of_sameRows h.rows e he hIn y hy)

theorem Untouched.substitute (hx : x.id ∉ G) (hRow : row.AllColumns fun c => c.id ∉ G) :
    t.Untouched G (u.substitute x row) where
  rows := h.rows.trans (sameRows_substitute (h.shuns hInside hx))
  outside e he hOut := by
    obtain ⟨d, hd, rfl⟩ := SymbolMap.mem_mapValues_iff.mp he
    exact Row.AllColumns.substitute (Row.AllColumns.imp (h.outside d hd hOut) fun _ hc _ => hc) hRow
  objective y hy := by
    have hAbsent : row.coefficient y = 0 :=
      Row.coefficient_of_avoids (hRow.imp fun c hc hId => hc (hId ▸ hy))
    refine (Row.coefficient_substitute_of_ne fun hId => hx (hId ▸ hy)).trans ?_
    rw [hAbsent, mul_zero, add_zero]
    exact h.objective y hy
  artificial r hr := by
    obtain ⟨d, hd, rfl⟩ := Option.map_eq_some_iff.mp hr
    exact Row.AllColumns.substitute ((h.artificial d hd).imp fun _ hc _ => hc) hRow

theorem Untouched.strike (hx : x.id ∉ G) : t.Untouched G (u.strike x) where
  rows := h.rows.trans (sameRows_strike (h.shuns hInside hx))
  outside e he hOut := by
    obtain ⟨d, hd, rfl⟩ := SymbolMap.mem_mapValues_iff.mp he
    exact Row.AllColumns.remove (Row.AllColumns.imp (h.outside d hd hOut) fun _ hc _ => hc)
  objective y hy := by
    have hne : x.id ≠ y.id := fun hId => hx (hId ▸ hy)
    have hKept : (u.objective.remove x).coefficient y = u.objective.coefficient y := by
      rw [Row.coefficient_eq_value_sub, Row.coefficient_eq_value_sub, Row.value_remove,
        Row.value_remove, Function.update_of_ne hne]
      ring
    exact hKept.trans (h.objective y hy)
  artificial := h.artificial

/-- A row with a column from outside the group is a row from outside. -/
theorem Untouched.row_outside (hRow : (leaving, row) ∈ u.rows.entries)
    (hCell : entering ∈ row.cells.keys) (hEntering : entering.id ∉ G) :
    leaving.id ∉ G ∧ row.AllColumns fun c => c.id ∉ G := by
  have hLeaving : leaving.id ∉ G := fun hIn =>
    hEntering (hInside.of_sameRows h.rows _ hRow hIn entering hCell)
  exact ⟨hLeaving, h.outside _ hRow hLeaving⟩

theorem Untouched.eliminate (hRow : (leaving, row) ∈ u.rows.entries)
    (hCell : entering ∈ row.cells.keys) (hEntering : entering.id ∉ G) :
    t.Untouched G (u.eliminate leaving row entering) := by
  obtain ⟨hLeaving, hColumns⟩ := h.row_outside hInside hRow hCell hEntering
  have hExchange : (row.exchange leaving entering).AllColumns fun c => c.id ∉ G :=
    Row.AllColumns.exchange (hColumns.imp fun _ hc _ => hc) fun _ => hLeaving
  exact ((h.eraseRow (SymbolMap.mem_keys_of_mem hRow) hLeaving).substitute hInside hEntering
    hExchange).touch

theorem Untouched.pivot (hSolved : u.Solved issued) (hPivot : u.Exchangeable leaving row entering)
    (hEntering : entering.id ∉ G) : t.Untouched G (u.pivot leaving row entering) := by
  obtain ⟨hLeaving, hColumns⟩ :=
    h.row_outside hInside hPivot.row_mem hPivot.entering_mem hEntering
  have hEliminated := (h.eliminate hInside hPivot.row_mem hPivot.entering_mem hEntering).touch
    (x := entering)
  refine hEliminated.insertRow ?_ hEntering
    (Row.AllColumns.exchange (hColumns.imp fun _ hc _ => hc) fun _ => hLeaving)
  rw [rows_touch]
  exact hSolved.entering_new hPivot.toCrossing

theorem Untouched.install (hNew : ∀ b ∈ u.rows.keys, b.id ≠ x.id) (hx : x.id ∉ G)
    (hRow : row.AllColumns fun c => c.id ∉ G) : t.Untouched G (u.install row x) := by
  have hSolved : (row.solveFor x).AllColumns fun c => c.id ∉ G :=
    Row.AllColumns.solveFor (hRow.imp fun _ hc _ => hc)
  refine ((h.substitute hInside hx hSolved).touch).insertRow ?_ hx hSolved
  rw [rows_touch, keys_substitute]
  exact hNew

omit hInside in
theorem Untouched.phaseOneStart (hNew : ∀ b ∈ u.rows.keys, b.id ≠ x.id) (hx : x.id ∉ G)
    (hRow : row.AllColumns fun c => c.id ∉ G) : t.Untouched G (u.phaseOneStart x row) where
  rows := (h.insertRow hNew hx hRow).rows
  outside := (h.insertRow hNew hx hRow).outside
  objective := h.objective
  artificial r hr := by
    obtain rfl := Option.some.inj hr
    exact hRow

theorem Untouched.retired (hRegular : u.Regular issued) (hx : x.id ∉ G) (hRetired : u.Retired x v) :
    t.Untouched G v := by
  cases hRetired with
  | struck => exact h.strike hInside hx
  | erased hBasic => exact h.eraseRow hBasic hx
  | exchanged hPivot =>
    have hEntering := h.outside _ hPivot.row_mem hx _ hPivot.entering_mem
    exact (h.pivot hInside hRegular.solved hPivot hEntering).strike hInside hx

theorem Untouched.dropMarker? (hRegular : u.Regular issued) (hDistinct : Set.InjOn Symbol.id issued)
    (hIssued : x ∈ issued) (hx : x.id ∉ G) (hDrop : u.dropMarker? x = some v) :
    t.Untouched G v := by
  obtain ⟨row, hGet, rfl⟩ | ⟨_, leaving, row, hLeaving, rfl⟩ := dropMarker?_cases hDrop
  · have hRow := hRegular.solved.mem_of_get? hDistinct hIssued hGet
    exact h.eraseRow (SymbolMap.mem_keys_of_mem hRow) hx
  · obtain ⟨hRow, hLeaves⟩ := leaves_of_markerLeavingRow? hLeaving
    have hCell := Row.mem_of_coefficient_ne_zero hDistinct (hRegular.solved.columns.rows _ hRow)
      hIssued hLeaves.coefficient_ne_zero
    exact h.eliminate hInside hRow (SymbolMap.mem_keys_of_mem hCell) hx

omit hInside in
theorem Untouched.addToBasic (hRow : (x, row) ∈ u.rows.entries) (hx : x.id ∉ G) (δ : Rat) :
    t.Untouched G (u.addToBasic x row δ) where
  rows := h.rows.trans (sameRows_addToBasic hRow hx)
  outside e he hOut := by
    obtain ⟨r, hr, hCells⟩ := (sameCells_addToBasic hRow).rows e he
    exact allColumns_of_cells_eq r e.2 hCells.symm (h.outside _ hr hOut)
  objective := (sameCells_addToBasic hRow).objective ▸ h.objective
  artificial := (sameCells_addToBasic hRow).artificial ▸ h.artificial

theorem Untouched.moveMarker (hx : x.id ∉ G) (δ : Rat) : t.Untouched G (u.moveMarker x δ) where
  rows := h.rows.trans (sameRows_mapValues (fun _ r => shiftRow r x δ) rows_moveMarker
    fun e he hIn => shiftRow_of_coefficient_eq_zero
      (Row.coefficient_of_avoids (h.shuns hInside hx e he hIn)))
  outside e he hOut := by
    obtain ⟨r, hr, hCells⟩ := sameCells_moveMarker.rows e he
    exact allColumns_of_cells_eq r e.2 hCells.symm (h.outside _ hr hOut)
  objective := h.objective
  artificial := h.artificial

theorem Untouched.shiftEdit (hRegular : u.Regular issued) (hDistinct : Set.InjOn Symbol.id issued)
    {tag : Tag} (hTag : ∀ y ∈ tag.symbols, y ∈ issued ∧ y.id ∉ G) (δ : Rat) :
    t.Untouched G (u.shiftEdit tag δ) := by
  obtain ⟨hIssued, hMarker⟩ := hTag _ List.mem_cons_self
  rcases u.shiftEdit_cases tag δ with ⟨row, hGet, hShift⟩ | ⟨y, hy, row, hGet, hShift⟩ |
    ⟨_, hShift⟩ <;> rw [hShift]
  · exact h.addToBasic (hRegular.solved.mem_of_get? hDistinct hIssued hGet) hMarker _
  · obtain ⟨hKnown, hOut⟩ := hTag y (List.mem_cons_of_mem _ (Option.mem_toList.mpr hy))
    exact h.addToBasic (hRegular.solved.mem_of_get? hDistinct hKnown hGet) hOut _
  · exact h.moveMarker hInside hMarker _

end Steps

/-- No pivot of a pass has a reason in a group whose rows are feasible and whose columns do not lower
the objective. -/
theorem Untouched.lasting {goal : Goal} (hInside : t.Closed (numberedIn G)) (hFeasible : t.Feasible)
    (hLevel : ∀ y ∈ issued, y.isDummy = false → 0 ≤ t.objective.coefficient y) :
    Lasting issued goal (t.Untouched G) where
  pivot u leaving row entering hRegular h hPivot hPrompted := by
    refine h.pivot hInside hRegular.solved hPivot fun hIn => ?_
    have hIssued := hRegular.solved.columns.rows _ hPivot.row_mem _ hPivot.entering_mem
    cases hPrompted with
    | @falling r hObjective hNegative =>
      cases goal with
      | primary =>
        obtain rfl := Option.some.inj hObjective
        rw [h.objective entering hIn] at hNegative
        exact absurd (hLevel entering hIssued hPivot.not_dummy) (not_le.mpr hNegative)
      | artificial =>
        have hAvoids : r.AllColumns fun c => c.id ≠ entering.id :=
          (h.artificial r hObjective).imp fun c hc hId => hc (hId ▸ hIn)
        rw [Row.coefficient_of_avoids hAvoids] at hNegative
        exact lt_irrefl _ hNegative
    | violated hBelow =>
      have hLeaving : leaving.id ∈ G := by
        by_contra hOut
        exact h.outside _ hPivot.row_mem hOut entering hPivot.entering_mem hIn
      have hOld := (h.rows (leaving, row) hLeaving).mp hPivot.row_mem
      exact absurd (hFeasible _ hOld hPivot.restricted) (not_le.mpr hBelow)
  congr u v hRows hObjective hArtificial h := h.congr hRows hObjective (by simp [hArtificial])

end SoftSimplex.Tableau
