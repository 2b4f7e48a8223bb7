import SoftSimplex.Proofs.Placement
import SoftSimplex.Proofs.SolverInvariant
import SoftSimplex.Solver.Encoding

/-!
# The place of an encoded row

A subject that is found at once is a good one: installing the row for it keeps every constant at
least zero. A row without a subject belongs to a required constraint, because the two columns of any
other constraint have opposite signs. If such a row has only dummies, its constant decides.
-/

namespace SoftSimplex
set_option autoImplicit false

open Tableau (Placed Admissible)

variable {issued more : Set Symbol} {s next : Solver Rat} {m : Multiset Variable}
  {c : Constraint Rat} {row : Row Rat} {tag : Tag} {x : Symbol} {a : Nat → Rat}

section Choice

theorem subject?_eq_some (h : subject? row tag = some x) :
    (x ∈ row.cells.keys ∧ x.isExternal = true) ∨
      ((row.AllColumns fun y => y.isExternal = false) ∧ x ∈ tag.symbols ∧
        x.isPivotable = true ∧ row.coefficient x < 0) := by
  simp only [subject?, Option.orElse_eq_orElse, Option.orElse_eq_or, Option.or_eq_some_iff] at h
  rcases h with hExternal | ⟨hNone, hOwn⟩
  · exact .inl ⟨List.mem_of_find?_eq_some hExternal, List.find?_some hExternal⟩
  · have hCondition := List.find?_some hOwn
    simp only [Bool.and_eq_true, decide_eq_true_eq] at hCondition
    refine .inr ⟨fun y hy => ?_, List.mem_of_find?_eq_some hOwn, hCondition⟩
    simpa using List.find?_eq_none.mp hNone y hy

theorem subject?_eq_none (h : subject? row tag = none) :
    (row.AllColumns fun y => y.isExternal = false) ∧
      ∀ y ∈ tag.symbols, y.isPivotable = true → 0 ≤ row.coefficient y := by
  simp only [subject?, Option.orElse_eq_orElse, Option.orElse_eq_or, Option.or_eq_none_iff] at h
  constructor
  · intro y hy
    simpa using List.find?_eq_none.mp h.1 y hy
  · intro y hy hPivotable
    have hNot := List.find?_eq_none.mp h.2 y hy
    simpa [hPivotable] using hNot

theorem isAllDummies_iff : row.isAllDummies = true ↔ row.AllColumns fun y => y.isDummy = true := by
  rw [Row.isAllDummies, List.all_eq_true]
  rfl

end Choice

namespace Encoded

variable (hCode : Encoded issued more s m c row tag next)
include hCode

theorem coefficient_marker : row.coefficient tag.marker ≠ 0 := by
  obtain ⟨σ, hσ, _, hCells⟩ := hCode.equation
  rw [hCells (tag.marker, Tag.markerSign c) List.mem_cons_self]
  have hSign : σ ≠ 0 := by
    rcases hσ with rfl | rfl <;> norm_num
  exact mul_ne_zero hSign (Tag.markerSign_ne_zero c)

theorem mem_row_of_coefficient_ne_zero (hx : x ∈ tag.symbols) (h : row.coefficient x ≠ 0) :
    x ∈ row.cells.keys :=
  SymbolMap.mem_keys_of_mem (Row.mem_of_coefficient_ne_zero hCode.numbered.distinct
    (hCode.addable.columns.imp fun _ hy => hy.1) (hCode.own x hx).1 h)

/-- The two columns of a constraint that is not required have opposite signs, so one of them can be
the subject. -/
theorem required_of_no_subject (hNone : subject? row tag = none) : c.isRequired = true := by
  by_contra hNot
  obtain ⟨y, hy, hMarker, hOther⟩ := hCode.marks.pivotable_of_not_required (by simpa using hNot)
  have hOwn : y ∈ tag.symbols := List.mem_cons_of_mem _ (Option.mem_toList.mpr hy)
  obtain ⟨σ, _, _, hCells⟩ := hCode.equation
  have hSecond : (y, -Tag.markerSign c) ∈ tag.cells c :=
    List.mem_cons_of_mem _ (List.mem_map.mpr ⟨y, Option.mem_toList.mpr hy, rfl⟩)
  have hFirstValue := hCells (tag.marker, Tag.markerSign c) List.mem_cons_self
  have hSecondValue := hCells _ hSecond
  have hFirstSign := (subject?_eq_none hNone).2 _ tag.marker_mem_symbols hMarker
  have hSecondSign := (subject?_eq_none hNone).2 y hOwn hOther
  have hNonzero := hCode.coefficient_marker
  dsimp only at hFirstValue hSecondValue
  apply hNonzero
  linarith

theorem addable_next : next.tableau.Addable more row := by
  refine ⟨hCode.addable.columns.imp fun y hy => ⟨hy.1, fun b hb => hy.2 b ?_⟩, hCode.addable.reduced⟩
  rwa [← hCode.rows]

theorem satisfies_iff : next.tableau.Satisfies a ↔ s.tableau.Satisfies a := by
  rw [Tableau.Satisfies, hCode.rows, Tableau.Satisfies]

variable (hRest : Solver.AtRest issued s.tableau)
include hRest

theorem feasible_next : next.tableau.Feasible := hRest.feasible.mono hCode.rows

theorem orderly_next : next.tableau.Orderly more := by
  intro y hy
  rw [hCode.queue, hRest.queue] at hy
  cases hy

theorem artificial_next : next.tableau.artificial = none :=
  hCode.artificial.trans hRest.artificial

theorem rows_avoid_own (hx : x ∈ tag.symbols) :
    ∀ e ∈ next.tableau.rows.entries, e.2.AllColumns fun y => y.id ≠ x.id := by
  intro e he
  rw [hCode.rows] at he
  exact (hRest.regular.solved.columns.rows e he).imp fun y hy => (hCode.own x hx).2 y hy

theorem placed_install (hBasic : Placement.of row tag = .basic x) :
    Placed more next.tableau (next.tableau.install row x) row := by
  rw [Placement.of] at hBasic
  split at hBasic
  · rename_i y hSubject
    obtain rfl := Placement.basic.inj hBasic
    rcases subject?_eq_some hSubject with ⟨hCell, hExternal⟩ | ⟨hKinds, hOwn, hPivotable, hNegative⟩
    · exact hCode.regular.placed_install_external hCode.numbered.distinct (hCode.orderly_next hRest)
        (hCode.feasible_next hRest) (hCode.artificial_next hRest) hCode.addable_next hCell hExternal
    · refine hCode.regular.placed_install_restricted (hCode.orderly_next hRest)
        (hCode.feasible_next hRest) (hCode.artificial_next hRest) hCode.addable_next
        (hCode.mem_row_of_coefficient_ne_zero hOwn hNegative.ne) (hCode.rows_avoid_own hRest hOwn)
        hKinds hCode.nonneg (.inl hNegative) fun hDummy => ?_
      rw [Symbol.isDummy_of_isPivotable hPivotable] at hDummy
      cases hDummy
  · rename_i hNone
    split at hBasic
    · rename_i hAll
      split at hBasic
      · rename_i hZero
        obtain rfl := Placement.basic.inj hBasic
        have hZero : row.constant = 0 := by simpa [Scalar.negligible] using hZero
        have hOwn := tag.marker_mem_symbols
        exact hCode.regular.placed_install_restricted (hCode.orderly_next hRest)
          (hCode.feasible_next hRest) (hCode.artificial_next hRest) hCode.addable_next
          (hCode.mem_row_of_coefficient_ne_zero hOwn hCode.coefficient_marker)
          (hCode.rows_avoid_own hRest hOwn) (subject?_eq_none hNone).1 hCode.nonneg (.inr hZero)
          fun _ => ⟨hZero, isAllDummies_iff.mp hAll⟩
      · cases hBasic
    · cases hBasic

omit hRest in
/-- A row that contradicts itself is another constant than zero wherever the dummies are zero. -/
theorem ne_zero_of_contradiction (hPlacement : Placement.of row tag = .contradiction) :
    c.isRequired = true ∧ ∀ a, Admissible more a → row.value a ≠ 0 := by
  rw [Placement.of] at hPlacement
  split at hPlacement
  · cases hPlacement
  · rename_i hNone
    split at hPlacement
    · rename_i hAll
      split at hPlacement
      · cases hPlacement
      · rename_i hNonzero
        refine ⟨hCode.required_of_no_subject hNone, fun a ha => ?_⟩
        rw [Row.value_of_vanish fun y hy =>
          (ha y (hCode.addable.columns y hy).1).2 (isAllDummies_iff.mp hAll y hy)]
        simpa [Scalar.negligible] using hNonzero
    · cases hPlacement

omit hRest in
theorem of_phaseOne (hPlacement : Placement.of row tag = .phaseOne) :
    c.isRequired = true ∧ (row.AllColumns fun y => y.isExternal = false) ∧
      ∃ y ∈ row.cells.keys, y.isDummy = false := by
  rw [Placement.of] at hPlacement
  split at hPlacement
  · cases hPlacement
  · rename_i hNone
    split at hPlacement
    · split at hPlacement <;> cases hPlacement
    · rename_i hSome
      refine ⟨hCode.required_of_no_subject hNone, (subject?_eq_none hNone).1, ?_⟩
      by_contra hAll
      refine hSome (isAllDummies_iff.mpr fun y hy => ?_)
      by_contra hNot
      exact hAll ⟨y, hy, by simpa using hNot⟩

end Encoded

end SoftSimplex
