import SoftSimplex.Proofs.ToleratedRows

/-!
# What rows lose to the tolerance

Over the rational numbers with a tolerance a sum of rows is exact but for the cells that it drops: a small
product that finds no cell, and a sum that cancels to nearly nothing. Every cell of the added row is
charged at most once, with less than the tolerance. Removing a cell, scaling and solving lose nothing.
-/

namespace SoftSimplex.Tolerant
set_option autoImplicit false

local instance : Field Tolerant := inferInstanceAs (Field Rat)
local instance : LinearOrder Tolerant := inferInstanceAs (LinearOrder Rat)
local instance : IsStrictOrderedRing Tolerant := inferInstanceAs (IsStrictOrderedRing Rat)

/-- The size of an assignment on the columns of a row. -/
def reach (a : Nat → Tolerant) (r : Row Tolerant) : Tolerant :=
  (r.cells.entries.map fun e => |a e.1.id|).sum

variable {r other : Row Tolerant} {a : Nat → Tolerant} {s : Symbol} {k c : Tolerant}

theorem tolerance_nonneg : 0 ≤ tolerance := (by norm_num : (0 : Rat) ≤ 1 / 10 ^ 8)

theorem abs_lt_tolerance {v : Tolerant} (h : Scalar.negligible v = true) : |v| < tolerance :=
  abs_lt.mpr (negligible_iff.mp h)

theorem addToCell_eq_ite (k : Tolerant) (cell : Option Tolerant) :
    Row.addToCell k cell =
      if Scalar.negligible (cell.getD 0 + k) then none else some (cell.getD 0 + k) := by
  cases cell with
  | none =>
    rw [Option.getD_none, zero_add]
    rfl
  | some c => rfl

/-- What an addition to a cell loses is the sum that it drops, if it drops one. -/
theorem abs_addToCell_sub_le (k : Tolerant) (cell : Option Tolerant) :
    |(Row.addToCell k cell).getD 0 - (cell.getD 0 + k)| ≤ tolerance := by
  rw [addToCell_eq_ite]
  split
  · rename_i hSmall
    rw [Option.getD_none, zero_sub, abs_neg]
    exact (abs_lt_tolerance hSmall).le
  · rw [Option.getD_some, sub_self, abs_zero]
    exact tolerance_nonneg

theorem elim_eq_getD_mul (cell : Option Tolerant) (x : Tolerant) :
    cell.elim 0 (fun c => c * x) = cell.getD 0 * x :=
  Row.elim_mul_eq_getD (show Option Rat from cell) x

theorem value_addConstant (r : Row Tolerant) (k : Tolerant) (a : Nat → Tolerant) :
    (r.addConstant k).value a = r.value a + k :=
  Row.value_addConstant (show Row Rat from r) a k

theorem abs_value_addSymbol_sub_le (r : Row Tolerant) (s : Symbol) (k : Tolerant)
    (a : Nat → Tolerant) :
    |(r.addSymbol s k).value a - (r.value a + k * a s.id)| ≤ tolerance * |a s.id| := by
  rw [Row.addSymbol]
  split
  · rename_i hZero
    have hk : k = 0 := (beq_iff_eq (α := Rat)).mp hZero
    rw [hk, zero_mul, add_zero, sub_self, abs_zero]
    exact mul_nonneg tolerance_nonneg (abs_nonneg _)
  · have h := SymbolMap.sum_alter (fun n c => c * a n) r.cells s (Row.addToCell k)
    rw [elim_eq_getD_mul, elim_eq_getD_mul] at h
    have hLoss : Row.value a { r with cells := r.cells.alter s (Row.addToCell k) } -
        (r.value a + k * a s.id) =
          ((Row.addToCell k (r.cells.get? s)).getD 0 - ((r.cells.get? s).getD 0 + k)) * a s.id := by
      simp only [Row.value]
      linear_combination h
    rw [hLoss, abs_mul]
    exact mul_le_mul_of_nonneg_right (abs_addToCell_sub_le k _) (abs_nonneg _)

/-- Each item is charged once, whatever the additions before it have dropped. -/
theorem abs_value_foldl_addSymbol_sub_le {β : Type} (key : β → Symbol) (f : β → Tolerant)
    (items : List β) (r : Row Tolerant) (a : Nat → Tolerant) :
    |(items.foldl (fun r i => r.addSymbol (key i) (f i)) r).value a -
        (r.value a + (items.map fun i => f i * a (key i).id).sum)| ≤
      tolerance * (items.map fun i => |a (key i).id|).sum := by
  induction items generalizing r with
  | nil => simp
  | cons i rest ih =>
    rw [List.foldl_cons, List.map_cons, List.sum_cons, List.map_cons, List.sum_cons, mul_add]
    set next := r.addSymbol (key i) (f i) with hNext
    set last := rest.foldl (fun r i => r.addSymbol (key i) (f i)) next
    set remaining := (rest.map fun i => f i * a (key i).id).sum
    have hStep : |next.value a - (r.value a + f i * a (key i).id)| ≤ tolerance * |a (key i).id| :=
      abs_value_addSymbol_sub_le r (key i) (f i) a
    calc |last.value a - (r.value a + (f i * a (key i).id + remaining))|
        = |next.value a - (r.value a + f i * a (key i).id) +
            (last.value a - (next.value a + remaining))| := by ring_nf
      _ ≤ |next.value a - (r.value a + f i * a (key i).id)| +
            |last.value a - (next.value a + remaining)| := abs_add_le _ _
      _ ≤ tolerance * |a (key i).id| + tolerance * (rest.map fun i => |a (key i).id|).sum :=
          add_le_add hStep (ih next)

theorem abs_value_addRow_sub_le (r other : Row Tolerant) (k : Tolerant) (a : Nat → Tolerant) :
    |(r.addRow other k).value a - (r.value a + k * other.value a)| ≤
      tolerance * reach a other := by
  have hCells : (other.cells.entries.map fun e => e.2 * k * a e.1.id).sum =
      k * (other.cells.entries.map fun e => e.2 * a e.1.id).sum := by
    rw [← List.sum_map_mul_left]
    exact congrArg List.sum (List.map_congr_left fun e _ => by ring)
  have hExact : (r.addConstant (other.constant * k)).value a +
      (other.cells.entries.map fun e => e.2 * k * a e.1.id).sum = r.value a + k * other.value a := by
    rw [value_addConstant, hCells, Row.value, Row.value]
    ring
  rw [← hExact]
  exact abs_value_foldl_addSymbol_sub_le Prod.fst (fun e => e.2 * k) other.cells.entries _ a

/-- Taking a cell out stores no sum, so it is the same as without a tolerance. -/
theorem value_remove (r : Row Tolerant) (s : Symbol) (a : Nat → Tolerant) :
    (r.remove s).value a = r.value a - r.coefficient s * a s.id :=
  Row.value_remove (show Row Rat from r) a s

theorem value_solveFor (h : r.coefficient s ≠ 0) :
    (r.solveFor s).value a = a s.id - r.value a / r.coefficient s :=
  Row.value_solveFor (r := (show Row Rat from r)) h

theorem reach_nonneg (a : Nat → Tolerant) (r : Row Tolerant) : 0 ≤ reach a r := by
  refine List.sum_nonneg fun x hx => ?_
  obtain ⟨e, -, rfl⟩ := List.mem_map.mp hx
  exact abs_nonneg _

theorem abs_value_substitute_sub_le (r other : Row Tolerant) (s : Symbol) (a : Nat → Tolerant) :
    |(r.substitute s other).value a -
        (r.value a + r.coefficient s * (other.value a - a s.id))| ≤ tolerance * reach a other := by
  rw [Row.substitute]
  cases hGet : r.cells.get? s with
  | none =>
    have hZero : r.coefficient s = 0 := by rw [Row.coefficient, hGet, Option.getD_none]
    rw [hZero, zero_mul, add_zero, sub_self, abs_zero]
    exact mul_nonneg tolerance_nonneg (reach_nonneg a other)
  | some c =>
    have hCell : r.coefficient s = c := by rw [Row.coefficient, hGet, Option.getD_some]
    have hExact : r.value a + r.coefficient s * (other.value a - a s.id) =
        (r.remove s).value a + c * other.value a := by
      rw [value_remove, hCell]
      ring
    rw [hExact]
    exact abs_value_addRow_sub_le (r.remove s) other c a

theorem constant_addRow_of_not_moves (h : other.movesConstant k = false) :
    (r.addRow other k).constant = r.constant := by
  rw [Row.movesConstant, Bool.not_eq_false'] at h
  have hZero : other.constant * k = 0 := (beq_iff_eq (α := Rat)).mp h
  rw [Row.constant_addRow, hZero, add_zero]

theorem constant_substitute_of_not_moves (h : r.substituteMoves s other = false) :
    (r.substitute s other).constant = r.constant := by
  rw [Row.substituteMoves] at h
  rw [Row.substitute]
  cases hGet : r.cells.get? s with
  | none => rfl
  | some c =>
    rw [hGet] at h
    exact constant_addRow_of_not_moves (r := r.remove s) h

theorem avoids_solveFor (hGet : r.cells.get? s = some c) :
    (r.solveFor s).AllColumns fun t => t.id ≠ s.id := by
  have hRemoved : (r.remove s).AllColumns fun t => t.id ≠ s.id := fun t ht =>
    (Row.mem_keys_remove_iff.mp ht).2
  rw [Row.solveFor, hGet]
  exact hRemoved.mapCoefficients _

/-- What rows lose to the tolerance, and where they lose nothing. -/
theorem row_arithmetic_within_tolerance (r other : Row Tolerant) (k : Tolerant) (s : Symbol)
    (a : Nat → Tolerant) :
    |(r.addRow other k).value a - (r.value a + k * other.value a)| ≤ tolerance * reach a other ∧
    (other.movesConstant k = false → (r.addRow other k).constant = r.constant) ∧
    |(r.substitute s other).value a -
        (r.value a + r.coefficient s * (other.value a - a s.id))| ≤ tolerance * reach a other ∧
    (r.substituteMoves s other = false → (r.substitute s other).constant = r.constant) ∧
    ∀ c, r.cells.get? s = some c → c ≠ 0 →
      ((r.solveFor s).AllColumns fun t => t.id ≠ s.id) ∧
      (r.solveFor s).value a = a s.id - r.value a / c ∧
      (r.value a = 0 ↔ a s.id = (r.solveFor s).value a) := by
  refine ⟨abs_value_addRow_sub_le r other k a, constant_addRow_of_not_moves,
    abs_value_substitute_sub_le r other s a, constant_substitute_of_not_moves,
    fun c hGet hCell => ?_⟩
  have hCoefficient : r.coefficient s = c := by rw [Row.coefficient, hGet, Option.getD_some]
  have hValue : (r.solveFor s).value a = a s.id - r.value a / c :=
    hCoefficient ▸ value_solveFor (hCoefficient ▸ hCell)
  refine ⟨avoids_solveFor hGet, hValue, ?_⟩
  rw [hValue, eq_sub_iff_add_eq, add_eq_left, div_eq_zero_iff, or_iff_left hCell]

/-- `2 + 3 * s1 + (1 / 100 + 1 / 10 ^ 9) * s2` -/
def keptRow : Row Tolerant :=
  (Row.addSymbol ⟨2, ∅⟩ ⟨.slack, 1⟩ 3).addSymbol ⟨.slack, 2⟩ (ofRat (1 / 100 + 1 / 10 ^ 9))

/-- `-s2 + 1 / 10 ^ 7 * s3`. A hundredth of it cancels the second cell of the other row, nearly. -/
def vanishingRow : Row Tolerant :=
  (Row.addSymbol ⟨0, ∅⟩ ⟨.slack, 2⟩ (-1)).addSymbol ⟨.slack, 3⟩ (ofRat (1 / 10 ^ 7))

theorem row_arithmetic_within_tolerance_of_vanishingRow :
    let a := fun n : Nat => ofRat n
    let k := ofRat (1 / 100)
    let s : Symbol := ⟨.slack, 1⟩
    (keptRow.addRow vanishingRow k).cells.entries = [(s, 3)] ∧
    |(keptRow.addRow vanishingRow k).value a - (keptRow.value a + k * vanishingRow.value a)| ≤
      tolerance * reach a vanishingRow ∧
    (keptRow.addRow vanishingRow k).constant = keptRow.constant ∧
    |(keptRow.substitute s vanishingRow).value a -
        (keptRow.value a + keptRow.coefficient s * (vanishingRow.value a - a s.id))| ≤
      tolerance * reach a vanishingRow ∧
    (keptRow.substitute s vanishingRow).constant = keptRow.constant ∧
    ((keptRow.solveFor s).AllColumns fun t => t.id ≠ s.id) ∧
    (keptRow.solveFor s).value a = a s.id - keptRow.value a / 3 ∧
    (keptRow.value a = 0 ↔ a s.id = (keptRow.solveFor s).value a) := by
  intro a k s
  obtain ⟨hAdd, hStays, hSubstitute, hRemains, hSolve⟩ :=
    row_arithmetic_within_tolerance keptRow vanishingRow k s a
  exact ⟨by decide +kernel, hAdd, hStays (by decide +kernel), hSubstitute,
    hRemains (by decide +kernel), hSolve 3 (by decide +kernel) (by decide +kernel)⟩

end SoftSimplex.Tolerant
