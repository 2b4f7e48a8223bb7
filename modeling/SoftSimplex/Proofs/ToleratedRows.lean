import SoftSimplex.Proofs.OverlookedRows

/-!
# Rational rows with a tolerance

Over the rational numbers with a tolerance the dual pass leaves a constant alone that is below zero by
a negligible amount. The primal pass divides such a constant by whatever coefficient its pivot has, and
the quotient may be far below zero. That row is the only one that a run can leave so, because it has
not been queued.
-/

namespace SoftSimplex
set_option autoImplicit false

instance : SignRules Rat where
  not_neg_lt_zero h := not_lt.mpr (neg_nonneg.mpr h.le)
  not_lt_zero_of_rising h hCell := by
    refine not_lt.mpr (mul_nonneg_of_nonpos_of_nonpos h.le ?_)
    exact div_nonpos_of_nonpos_of_nonneg (by norm_num) hCell.le
  not_lt_zero_of_falling h hCell := by
    refine not_lt.mpr (mul_nonneg (not_lt.mp h) ?_)
    exact div_nonneg_of_nonpos (by norm_num) hCell.le
  negligible_of_unit h _ := by
    rw [beq_iff_eq.mp h, zero_mul]
    rfl

theorem within_of_unit {a c ε : Rat} (h : -ε < a ∧ a < ε) (hCell : c = 1 ∨ c = -1) :
    -ε < a * (-1 / c) ∧ a * (-1 / c) < ε := by
  rcases hCell with rfl | rfl
  · rw [div_one, mul_neg_one]
    exact ⟨neg_lt_neg h.2, neg_lt.mp h.1⟩
  · rw [neg_div_neg_eq, div_one, mul_one]
    exact h

/-- Rational numbers of which those within one hundred-millionth of zero are negligible. -/
def Tolerant : Type := Rat

namespace Tolerant

def ofRat (q : Rat) : Tolerant := q

instance : DecidableEq Tolerant := inferInstanceAs (DecidableEq Rat)

instance : Scalar Tolerant := (Scalar.withTolerance instScalarRat (1 / 10 ^ 8) : Scalar Rat)

def tolerance : Tolerant := ofRat (1 / 10 ^ 8)

theorem negligible_iff {v : Rat} : Scalar.negligible (ofRat v) = true ↔
    -(1 / 10 ^ 8) < v ∧ v < 1 / 10 ^ 8 := by
  show (decide (-(1 / 10 ^ 8 : Rat) < v) && decide (v < 1 / 10 ^ 8)) = true ↔ _
  rw [Bool.and_eq_true, decide_eq_true_eq, decide_eq_true_eq]

instance : SignRules Tolerant where
  not_neg_lt_zero {a} h := SignRules.not_neg_lt_zero (α := Rat) (a := a) h
  not_lt_zero_of_rising {a c} h hCell :=
    SignRules.not_lt_zero_of_rising (α := Rat) (a := a) (c := c) h hCell
  not_lt_zero_of_falling {a c} h hCell :=
    SignRules.not_lt_zero_of_falling (α := Rat) (a := a) (c := c) h hCell
  negligible_of_unit {a c} h hCell :=
    negligible_iff.mpr (within_of_unit (a := a) (c := c) (negligible_iff.mp h) hCell)

theorem needsRepair_iff {r : Row Tolerant} :
    Tableau.needsRepair r = true ↔ r.constant ≤ -tolerance := by
  have hRead : ∀ v : Rat, (v < 0 ∧ ¬ (-(1 / 10 ^ 8) < v ∧ v < 1 / 10 ^ 8)) ↔ v ≤ -(1 / 10 ^ 8) := by
    intro v
    constructor
    · rintro ⟨hBelow, hFar⟩
      by_contra hNear
      exact hFar ⟨not_le.mp hNear, hBelow.trans (by norm_num)⟩
    · intro h
      exact ⟨h.trans_lt (by norm_num), fun hNear => absurd hNear.1 (not_lt.mpr h)⟩
  rw [Tableau.needsRepair, Bool.and_eq_true, decide_eq_true_eq, Bool.not_eq_true', Bool.eq_false_iff]
  exact (and_congr_right fun _ => not_congr negligible_iff).trans (hRead r.constant)

end Tolerant

open Tolerant

namespace Solver

/-- After every run without a breakdown a restricted row has a constant of at least the negated
tolerance, or it is the row of an entry of the run and has the value which that entry came with. At
most one row is of the second sort. -/
theorem restricted_rows_of_run (limit : Nat) (ops : List (Operation Tolerant))
    (hOk : (withPivotLimit limit : Solver Tolerant).RunsThrough ops) :
    let rows := (reached limit ops : Solver Tolerant).tableau.rows.entries
    (∀ e ∈ rows, e.1.isExternal = false → -tolerance ≤ e.2.constant ∨
      e.2.constant < -tolerance ∧
        (e.1, e.2.constant) ∈ (withPivotLimit limit : Solver Tolerant).runEntries ops) ∧
    ∀ e ∈ rows, ∀ d ∈ rows, e.1.isExternal = false → d.1.isExternal = false →
      e.2.constant < -tolerance → d.2.constant < -tolerance → e = d := by
  obtain ⟨⟨o, ho, hWatched⟩, hQueue⟩ := tended_reached hOk
  have hOverlooked : ∀ e ∈ (reached limit ops : Solver Tolerant).tableau.rows.entries,
      e.1.isExternal = false → e.2.constant < -tolerance → o = some (e.1, e.2.constant) := by
    intro e he hKind hBelow
    have hLow : e.2.constant ≤ -tolerance := le_of_lt (α := Rat) hBelow
    refine (hWatched e he hKind (needsRepair_iff.mpr hLow)).resolve_left ?_
    rw [hQueue]
    exact List.not_mem_nil
  refine ⟨fun e he hKind => ?_, fun e he d hd hKind hOther hBelow hFar => ?_⟩
  · rcases le_or_gt (α := Rat) (-tolerance) e.2.constant with hAbove | hBelow
    · exact .inl hAbove
    · exact .inr ⟨hBelow, ho _ (hOverlooked e he hKind hBelow)⟩
  · have hPairs := (hOverlooked e he hKind hBelow).symm.trans (hOverlooked d hd hOther hFar)
    exact SymbolMap.eq_of_mem_of_id_eq he hd (congrArg (fun p => p.1.id) (Option.some.inj hPairs))

/-- A first number is at least the `2 ^ 26`th part of a second one, which is not negative. When the first
is to be slightly less than zero, the constant of its row is too small to be repaired. Then the second
number is to be a hundred. -/
def smallCell : List (Operation Tolerant) :=
  [.addConstraint (.make 1 ⟨[⟨⟨1⟩, 1⟩, ⟨⟨2⟩, ofRat (-1 / 2 ^ 26)⟩], 0⟩
      .greaterOrEqual .required),
    .addConstraint (.make 2 ⟨[⟨⟨2⟩, 1⟩], 0⟩ .greaterOrEqual .required),
    .addEditVariable ⟨1⟩ ⟨ofRat 1000000000⟩ 3,
    .suggestValue ⟨1⟩ 1,
    .suggestValue ⟨1⟩ (ofRat (-1 / 2 ^ 27)),
    .addConstraint (.make 4 ⟨[⟨⟨2⟩, 1⟩], ofRat (-100)⟩ .greaterOrEqual .weak)]

theorem restricted_rows_of_smallCell :
    (withPivotLimit 10000 : Solver Tolerant).RunsThrough smallCell ∧
      ∀ e ∈ (reached 10000 smallCell).tableau.rows.entries, e.1.isExternal = false →
        -tolerance ≤ e.2.constant ∨ (e.1, e.2.constant) = (⟨.slack, 4⟩, ofRat (-1 / 2)) := by
  have hOk : (withPivotLimit 10000 : Solver Tolerant).RunsThrough smallCell := by decide +kernel
  obtain ⟨hRows, _⟩ := restricted_rows_of_run 10000 smallCell hOk
  refine ⟨hOk, ?_⟩
  have hEntries : (withPivotLimit 10000 : Solver Tolerant).runEntries smallCell =
      [(⟨.slack, 4⟩, ofRat (-1 / 2))] := by decide +kernel
  intro e he hKind
  refine (hRows e he hKind).imp_right fun hEntry => ?_
  rw [hEntries] at hEntry
  exact List.mem_singleton.mp hEntry.2

/-- The slack of the second number's bound ends at minus one half, and nothing has broken down. -/
theorem not_forall_restricted_rows_within_tolerance :
    ¬ ∀ ops : List (Operation Tolerant), (withPivotLimit 10000 : Solver Tolerant).RunsThrough ops →
      ∀ e ∈ (reached 10000 ops).tableau.rows.entries, e.1.isExternal = false →
        -tolerance ≤ e.2.constant := by
  intro hAll
  have hBelow : ∃ e ∈ (reached 10000 smallCell).tableau.rows.entries, e.1.isExternal = false ∧
      ¬ -tolerance ≤ e.2.constant := by decide +kernel
  obtain ⟨e, he, hKind, hNot⟩ := hBelow
  exact hNot (hAll smallCell (by decide +kernel) e he hKind)

end Solver

end SoftSimplex
