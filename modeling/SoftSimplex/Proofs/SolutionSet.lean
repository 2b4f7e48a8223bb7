import Mathlib
import SoftSimplex.Proofs.RowValue
import SoftSimplex.Proofs.Separation
import SoftSimplex.Satisfaction

/-!
# Solutions of a tableau

Over the rational numbers a tableau in solved form says which assignments of the columns solve it:
the non-basic columns are free and the basic ones follow. A pivot changes neither the solutions nor
the value of an objective at a solution. Eliminating a symbol projects the solutions along it, and
installing a row intersects them with the zeros of the row.
-/

namespace SoftSimplex.Tableau
set_option autoImplicit false

structure Regular (issued : Set Symbol) (t : Tableau Rat) : Prop where
  solved : t.Solved issued
  reduced : t.AllRows Row.Reduced
  separate : t.Separate

/-- Two tableaus with the same solutions, and at these the same objectives. -/
structure SameMeaning (t u : Tableau Rat) : Prop where
  rows : ∀ a, u.Satisfies a ↔ t.Satisfies a
  objective : ∀ a, t.Satisfies a → u.objective.value a = t.objective.value a
  artificial : ∀ a, t.Satisfies a → u.artificial.map (Row.value a) = t.artificial.map (Row.value a)
  size : u.rows.entries.length = t.rows.entries.length

theorem SameMeaning.refl (t : Tableau Rat) : t.SameMeaning t :=
  ⟨fun _ => Iff.rfl, fun _ _ => rfl, fun _ _ => rfl, rfl⟩

theorem SameMeaning.trans {t u v : Tableau Rat} (h : t.SameMeaning u) (h' : u.SameMeaning v) :
    t.SameMeaning v where
  rows a := (h'.rows a).trans (h.rows a)
  objective a ha := (h'.objective a ((h.rows a).mpr ha)).trans (h.objective a ha)
  artificial a ha := (h'.artificial a ((h.rows a).mpr ha)).trans (h.artificial a ha)
  size := h'.size.trans h.size

theorem SameMeaning.requeue (t : Tableau Rat) (rest : List Symbol) :
    t.SameMeaning { t with infeasible := rest } :=
  ⟨fun _ => Iff.rfl, fun _ _ => rfl, fun _ _ => rfl, rfl⟩

/-- The solution that takes the values of an assignment off the basis. -/
def complete (t : Tableau Rat) (a : Nat → Rat) (n : Nat) : Rat :=
  match t.rows.get? ⟨.invalid, n⟩ with
  | none => a n
  | some row => row.value a

variable {issued : Set Symbol} {t u : Tableau Rat} {row : Row Rat} {leaving entering s : Symbol}
  {a b : Nat → Rat}

section Complete

theorem complete_of_mem (hRow : (s, row) ∈ t.rows.entries) : t.complete a s.id = row.value a := by
  have hGet : t.rows.get? ⟨.invalid, s.id⟩ = some row :=
    (SymbolMap.get?_congr t.rows rfl).trans (SymbolMap.get?_of_mem hRow)
  rw [complete, hGet]

theorem complete_of_nonbasic {n : Nat} (h : ∀ b ∈ t.rows.keys, b.id ≠ n) :
    t.complete a n = a n := by
  rw [complete, SymbolMap.get?_eq_none_iff.mpr h]

theorem value_complete {r : Row Rat} (h : ∀ b ∈ t.rows.keys, r.AllColumns fun c => c.id ≠ b.id) :
    r.value (t.complete a) = r.value a :=
  Row.value_congr fun c hc => complete_of_nonbasic fun b hb => (h b hb c hc).symm

theorem Solved.satisfies_complete (h : t.Solved issued) : t.Satisfies (t.complete a) := by
  intro e he
  rw [complete_of_mem he, value_complete fun b hb => (h.nonbasic b hb).rows e he]

theorem Solved.objective_complete (h : t.Solved issued) :
    t.objective.value (t.complete a) = t.objective.value a :=
  value_complete fun b hb => (h.nonbasic b hb).objective

theorem value_eq_complete (t : Tableau Rat) (s : Symbol) : t.value s = t.complete 0 s.id := by
  have hGet : t.rows.get? ⟨.invalid, s.id⟩ = t.rows.get? s := SymbolMap.get?_congr t.rows rfl
  rw [value, complete, hGet]
  cases t.rows.get? s with
  | none => rfl
  | some row => exact row.constant_eq_value

/-- The values off the basis determine a solution. -/
theorem Solved.complete_eq (h : t.Solved issued) (hSat : t.Satisfies b)
    (hFree : ∀ n, (∀ c ∈ t.rows.keys, c.id ≠ n) → b n = a n) : t.complete a = b := by
  funext n
  by_cases hBasic : ∃ c ∈ t.rows.keys, c.id = n
  · obtain ⟨c, hc, rfl⟩ := hBasic
    obtain ⟨e, he, rfl⟩ := List.mem_map.mp hc
    rw [complete_of_mem he, hSat e he]
    refine Row.value_congr fun c hc => (hFree c.id fun b hb => ?_).symm
    exact ((h.nonbasic b hb).rows e he c hc).symm
  · have hNonbasic : ∀ c ∈ t.rows.keys, c.id ≠ n := fun c hc hId => hBasic ⟨c, hc, hId⟩
    rw [complete_of_nonbasic hNonbasic, hFree n hNonbasic]

/-- A basic column shows the value of its row, any other the value that it was given. -/
theorem Solved.complete_cases (h : t.Solved issued) (hDistinct : Set.InjOn Symbol.id issued)
    (hs : s ∈ issued) (a : Nat → Rat) :
    (∃ row, (s, row) ∈ t.rows.entries ∧ t.complete a s.id = row.value a) ∨
      t.complete a s.id = a s.id := by
  by_cases hBasic : ∃ b ∈ t.rows.keys, b.id = s.id
  · obtain ⟨b, hb, hId⟩ := hBasic
    obtain ⟨e, he, rfl⟩ := List.mem_map.mp hb
    obtain rfl : e.1 = s := hDistinct (h.keys e.1 hb) hs hId
    exact .inl ⟨e.2, he, complete_of_mem he⟩
  · exact .inr (complete_of_nonbasic fun b hb hId => hBasic ⟨b, hb, hId⟩)

theorem Pinned.complete_eq_zero (h : t.Pinned) (hSolved : t.Solved issued)
    (hDistinct : Set.InjOn Symbol.id issued)
    (ha : ∀ c ∈ issued, c.isDummy = true → a c.id = 0) (hs : s ∈ issued)
    (hKind : s.isDummy = true) : t.complete a s.id = 0 := by
  rcases hSolved.complete_cases hDistinct hs a with ⟨row, hRow, hValue⟩ | hValue
  · obtain ⟨hConstant, hColumns⟩ := h _ hRow hKind
    rw [hValue, Row.value_of_vanish fun c hc =>
      ha c (hSolved.columns.rows _ hRow c hc) (hColumns c hc), hConstant]
  · rw [hValue, ha s hs hKind]

end Complete

section Rows

theorem satisfies_congr (hKeys : ∀ c ∈ t.rows.keys, a c.id = b c.id)
    (hRows : ∀ e ∈ t.rows.entries, e.2.AllColumns fun c => a c.id = b c.id) :
    t.Satisfies a ↔ t.Satisfies b := by
  refine forall₂_congr fun e he => ?_
  rw [hKeys e.1 (SymbolMap.mem_keys_of_mem he), Row.value_congr (hRows e he)]

theorem satisfies_update {n : Nat} (x : Rat) (hKeys : ∀ c ∈ t.rows.keys, c.id ≠ n)
    (hRows : ∀ e ∈ t.rows.entries, e.2.AllColumns fun c => c.id ≠ n) :
    t.Satisfies (Function.update a n x) ↔ t.Satisfies a := by
  refine satisfies_congr (fun c hc => ?_) fun e he c hc => ?_
  · exact Function.update_of_ne (hKeys c hc) _ _
  · exact Function.update_of_ne (hRows e he c hc) _ _

theorem satisfies_touch : (t.touch s).Satisfies a ↔ t.Satisfies a := by
  rw [Satisfies, rows_touch, Satisfies]

theorem satisfies_insertRow (hNew : ∀ b ∈ t.rows.keys, b.id ≠ s.id) :
    (t.insertRow s row).Satisfies a ↔ a s.id = row.value a ∧ t.Satisfies a := by
  constructor
  · intro h
    exact ⟨h _ ((SymbolMap.mem_insert_iff hNew).mpr (.inl rfl)),
      fun e he => h e ((SymbolMap.mem_insert_iff hNew).mpr (.inr he))⟩
  · rintro ⟨hRow, h⟩ e he
    rcases (SymbolMap.mem_insert_iff hNew).mp he with rfl | he
    · exact hRow
    · exact h e he

theorem satisfies_iff_eraseRow (hRow : (s, row) ∈ t.rows.entries) :
    t.Satisfies a ↔ a s.id = row.value a ∧ (t.eraseRow s).Satisfies a := by
  constructor
  · intro h
    exact ⟨h _ hRow, fun e he => h e (SymbolMap.mem_erase_iff.mp he).1⟩
  · rintro ⟨hEq, h⟩ e he
    by_cases hId : e.1.id = s.id
    · rw [SymbolMap.eq_of_mem_of_id_eq he hRow hId]
      exact hEq
    · exact h e (SymbolMap.mem_erase_iff.mpr ⟨he, hId⟩)

theorem satisfies_substitute (h : a s.id = row.value a) :
    (t.substitute s row).Satisfies a ↔ t.Satisfies a := by
  have hValue : ∀ r : Row Rat, (r.substitute s row).value a = r.value a := by
    intro r
    rw [Row.value_substitute, h, sub_self, mul_zero, add_zero]
  constructor
  · intro hSat e he
    rw [← hValue]
    exact hSat _ (SymbolMap.mem_mapValues_iff.mpr ⟨e, he, rfl⟩)
  · intro hSat e he
    obtain ⟨d, hd, rfl⟩ := SymbolMap.mem_mapValues_iff.mp he
    exact (hSat d hd).trans (hValue d.2).symm

end Rows

section Leaving

variable (hSolved : t.Solved issued) (hRow : (leaving, row) ∈ t.rows.entries)
include hSolved hRow

theorem Solved.leaving_coefficient : row.coefficient leaving = 0 :=
  Row.coefficient_of_avoids ((hSolved.nonbasic leaving (SymbolMap.mem_keys_of_mem hRow)).rows _ hRow)

variable (hEntering : row.coefficient entering ≠ 0)
include hEntering

theorem Solved.exchange_value_iff :
    a entering.id = (row.exchange leaving entering).value a ↔ a leaving.id = row.value a := by
  rw [Row.value_exchange (hSolved.leaving_coefficient hRow) hEntering]
  constructor
  · intro h
    have hZero : (row.value a - a leaving.id) / row.coefficient entering = 0 := by linarith
    cases div_eq_zero_iff.mp hZero with
    | inl hZero =>
      linarith
    | inr hZero =>
      exact absurd hZero hEntering
  · intro h
    rw [h, sub_self, zero_div, sub_zero]

theorem Solved.satisfies_eliminate_of_eq (h : a entering.id = (row.exchange leaving entering).value a) :
    (t.eliminate leaving row entering).Satisfies a ↔ t.Satisfies a := by
  rw [Tableau.eliminate, satisfies_touch, satisfies_substitute h, satisfies_iff_eraseRow hRow]
  exact (and_iff_right ((hSolved.exchange_value_iff hRow hEntering).mp h)).symm

/-- Eliminating a symbol projects the solutions along it. -/
theorem Solved.satisfies_eliminate : (t.eliminate leaving row entering).Satisfies a ↔
    t.Satisfies (Function.update a entering.id ((row.exchange leaving entering).value a)) := by
  have hFresh : ∀ c ∈ (t.eliminate leaving row entering).rows.keys, c.id ≠ entering.id := by
    intro c hc hId
    rw [keys_eliminate] at hc
    have hCell := (hSolved.nonbasic c (mem_keys_eraseRow hc).1).rows _ hRow
    exact hEntering (Row.coefficient_congr row hId ▸ Row.coefficient_of_avoids hCell)
  rw [← satisfies_update _ hFresh (hSolved.eliminate_avoids hRow).rows]
  apply hSolved.satisfies_eliminate_of_eq hRow hEntering
  rw [Function.update_self]
  refine Row.value_congr fun c hc => ?_
  exact (Function.update_of_ne ((hSolved.exchange_columns hRow c hc).2.1) _ _).symm

theorem Solved.satisfies_eliminate_iff_exists : (t.eliminate leaving row entering).Satisfies a ↔
    ∃ x, t.Satisfies (Function.update a entering.id x) := by
  rw [hSolved.satisfies_eliminate hRow hEntering]
  constructor
  · exact fun h => ⟨_, h⟩
  · rintro ⟨x, h⟩
    have hx := (hSolved.exchange_value_iff hRow hEntering).mpr (h _ hRow)
    rw [Function.update_self] at hx
    have hSame : (row.exchange leaving entering).value (Function.update a entering.id x) =
        (row.exchange leaving entering).value a :=
      Row.value_congr fun c hc =>
        Function.update_of_ne ((hSolved.exchange_columns hRow c hc).2.1) _ _
    rwa [← hSame, ← hx]

end Leaving

theorem value_eliminate_objective : (t.eliminate leaving row entering).objective.value a =
    t.objective.value (Function.update a entering.id ((row.exchange leaving entering).value a)) := by
  rw [Tableau.eliminate, objective_touch, Row.value_update]
  exact Row.value_substitute _ _ _ _

theorem length_eliminate (hRow : (leaving, row) ∈ t.rows.entries) :
    (t.eliminate leaving row entering).rows.entries.length + 1 = t.rows.entries.length := by
  rw [Tableau.eliminate, rows_touch]
  exact (congrArg (· + 1) (SymbolMap.length_mapValues _ _)).trans
    (SymbolMap.length_erase (SymbolMap.get?_of_mem hRow))

theorem Solved.satisfies_eraseRow_iff_exists (hSolved : t.Solved issued)
    (hRow : (s, row) ∈ t.rows.entries) :
    (t.eraseRow s).Satisfies a ↔ ∃ x, t.Satisfies (Function.update a s.id x) := by
  have hAvoids := hSolved.nonbasic s (SymbolMap.mem_keys_of_mem hRow)
  have hFree : ∀ x, (t.eraseRow s).Satisfies (Function.update a s.id x) ↔
      (t.eraseRow s).Satisfies a := fun x =>
    satisfies_update x (fun c hc => (mem_keys_eraseRow hc).2) hAvoids.eraseRow.rows
  constructor
  · intro h
    refine ⟨row.value a, (satisfies_iff_eraseRow hRow).mpr ⟨?_, (hFree _).mpr h⟩⟩
    rw [Function.update_self]
    exact Row.value_congr fun c hc => (Function.update_of_ne (hAvoids.rows _ hRow c hc) _ _).symm
  · rintro ⟨x, h⟩
    exact (hFree x).mp ((satisfies_iff_eraseRow hRow).mp h).2

/-- Striking a non-basic symbol sets it to zero. -/
theorem satisfies_strike (hNew : ∀ b ∈ t.rows.keys, b.id ≠ s.id) :
    (t.strike s).Satisfies a ↔ t.Satisfies (Function.update a s.id 0) := by
  have hValue : ∀ r : Row Rat, (r.remove s).value a = r.value (Function.update a s.id 0) := by
    intro r
    rw [Row.value_remove, Row.value_update]
    ring
  have hBasic : ∀ e ∈ t.rows.entries, Function.update a s.id 0 e.1.id = a e.1.id := fun e he =>
    Function.update_of_ne (hNew e.1 (SymbolMap.mem_keys_of_mem he)) _ _
  constructor
  · intro h e he
    rw [hBasic e he, ← hValue]
    exact h _ (SymbolMap.mem_mapValues_iff.mpr ⟨e, he, rfl⟩)
  · intro h e he
    obtain ⟨d, hd, rfl⟩ := SymbolMap.mem_mapValues_iff.mp he
    exact (hBasic d hd).symm.trans ((h d hd).trans (hValue d.2).symm)

section Pivot

theorem Regular.mono (h : t.Regular issued) (hRows : u.rows = t.rows)
    (hObjective : u.objective = t.objective) (hArtificial : ∀ r ∈ u.artificial, r ∈ t.artificial) :
    u.Regular issued where
  solved := h.solved.mono hRows hObjective hArtificial
  reduced := h.reduced.mono hRows hObjective hArtificial
  separate := h.separate.mono hRows hObjective hArtificial

section Solved

variable (h : t.Solved issued) (hPivot : t.Crossing leaving row entering)
include h hPivot

theorem Solved.entering_new_touched :
    ∀ b ∈ ((t.eliminate leaving row entering).touch entering).rows.keys, b.id ≠ entering.id := by
  rw [rows_touch]
  exact h.entering_new hPivot

variable (hCoefficient : row.coefficient entering ≠ 0)
include hCoefficient

theorem Solved.satisfies_pivot : (t.pivot leaving row entering).Satisfies a ↔ t.Satisfies a := by
  rw [Tableau.pivot, satisfies_insertRow (h.entering_new_touched hPivot), satisfies_touch]
  constructor
  · rintro ⟨hEq, hSat⟩
    exact (h.satisfies_eliminate_of_eq hPivot.row_mem hCoefficient hEq).mp hSat
  · intro hSat
    have hEq := (h.exchange_value_iff hPivot.row_mem hCoefficient).mpr (hSat _ hPivot.row_mem)
    exact ⟨hEq, (h.satisfies_eliminate_of_eq hPivot.row_mem hCoefficient hEq).mpr hSat⟩

theorem Solved.value_substitute_exchange (hSat : t.Satisfies a) (r : Row Rat) :
    (r.substitute entering (row.exchange leaving entering)).value a = r.value a := by
  rw [Row.value_substitute, ← (h.exchange_value_iff hPivot.row_mem hCoefficient).mpr
    (hSat _ hPivot.row_mem), sub_self, mul_zero, add_zero]

theorem Solved.sameMeaning_pivot : t.SameMeaning (t.pivot leaving row entering) := by
  refine ⟨fun a => h.satisfies_pivot hPivot hCoefficient, fun a hSat => ?_, fun a hSat => ?_, ?_⟩
  · rw [show (t.pivot leaving row entering).objective = _ from
      (objective_touch _ _).trans (objective_touch _ _)]
    exact h.value_substitute_exchange hPivot hCoefficient hSat _
  · have hValue := h.value_substitute_exchange hPivot hCoefficient hSat
    rw [show (t.pivot leaving row entering).artificial = _ from
      (artificial_touch _ _).trans (artificial_touch _ _)]
    cases hArtificial : t.artificial with
    | none => simp [Tableau.substitute, Tableau.eraseRow, hArtificial]
    | some r => simp [Tableau.substitute, Tableau.eraseRow, hArtificial, hValue]
  · have hGet : ((t.eliminate leaving row entering).touch entering).rows.get? entering = none :=
      SymbolMap.get?_eq_none_iff.mpr (h.entering_new_touched hPivot)
    refine (SymbolMap.length_insert _ hGet).trans ?_
    rw [rows_touch]
    exact length_eliminate hPivot.row_mem

end Solved

variable (h : t.Regular issued) (hPivot : t.Exchangeable leaving row entering)
include h hPivot

theorem Regular.entering_coefficient : row.coefficient entering ≠ 0 :=
  (h.reduced.rows _ hPivot.row_mem).coefficient_ne_zero hPivot.entering_mem

theorem Regular.pivot : (t.pivot leaving row entering).Regular issued where
  solved := h.solved.pivot hPivot.row_mem hPivot.entering_mem
  reduced := (h.reduced.eraseRow.substitute fun _ hr => hr.substitute).touch.touch.insertRow
    (h.reduced.rows _ hPivot.row_mem).exchange
  separate := h.separate.pivot h.solved hPivot

theorem Regular.sameMeaning_pivot : t.SameMeaning (t.pivot leaving row entering) :=
  h.solved.sameMeaning_pivot hPivot.toCrossing (h.entering_coefficient hPivot)

end Pivot

/-- What it takes to add a row that reads `0 = row`. -/
structure Addable (issued : Set Symbol) (t : Tableau Rat) (row : Row Rat) : Prop where
  columns : row.AllColumns fun c => c ∈ issued ∧ ∀ b ∈ t.rows.keys, c.id ≠ b.id
  reduced : row.Reduced

/-- The second tableau says what the first one says, and that a row is zero. -/
structure Absorbs (t u : Tableau Rat) (row : Row Rat) : Prop where
  rows : ∀ a, u.Satisfies a ↔ t.Satisfies a ∧ row.value a = 0
  objective : ∀ a, u.Satisfies a → u.objective.value a = t.objective.value a
  size : u.rows.entries.length = t.rows.entries.length + 1

section Install

variable (hRow : t.Addable issued row) (hs : s ∈ row.cells.keys)
include hRow hs

theorem Addable.subject_new : ∀ b ∈ t.rows.keys, b.id ≠ s.id :=
  fun b hb => ((hRow.columns s hs).2 b hb).symm

theorem Addable.absorbs_install : t.Absorbs (t.install row s) row := by
  have hCoefficient := hRow.reduced.coefficient_ne_zero hs
  have hNew : ∀ b ∈ ((t.substitute s (row.solveFor s)).touch s).rows.keys, b.id ≠ s.id := by
    rw [rows_touch, keys_substitute]
    exact hRow.subject_new hs
  have hZero : ∀ a, a s.id = (row.solveFor s).value a ↔ row.value a = 0 := by
    intro a
    rw [Row.value_solveFor hCoefficient]
    constructor
    · intro h
      exact (div_eq_zero_iff.mp (by linarith)).resolve_right hCoefficient
    · intro h
      rw [h, zero_div, sub_zero]
  have hRows : ∀ a, (t.install row s).Satisfies a ↔ t.Satisfies a ∧ row.value a = 0 := by
    intro a
    rw [Tableau.install, satisfies_insertRow hNew, satisfies_touch, hZero, and_comm]
    exact and_congr_left fun h => satisfies_substitute ((hZero a).mpr h)
  refine ⟨hRows, fun a hSat => ?_, ?_⟩
  · rw [show (t.install row s).objective = _ from objective_touch _ _]
    refine (Row.value_substitute _ _ _ _).trans ?_
    rw [← (hZero a).mpr ((hRows a).mp hSat).2, sub_self, mul_zero, add_zero]
  · refine (SymbolMap.length_insert _ (SymbolMap.get?_eq_none_iff.mpr hNew)).trans ?_
    rw [rows_touch]
    exact congrArg (· + 1) (SymbolMap.length_mapValues _ _)

end Install

end SoftSimplex.Tableau
