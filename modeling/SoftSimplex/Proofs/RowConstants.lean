import SoftSimplex.Proofs.RowColumns

/-!
# Constants of rows

What each operation does to the constant of a row, in any arithmetic. A substitution that reports no
move adds a value that equals zero, and nothing else.
-/

namespace SoftSimplex
set_option autoImplicit false

variable {α : Type} [Scalar α]

/-- The second value comes from the first by additions of values that equal zero. -/
inductive Scalar.Unmoved (a : α) : α → Prop where
  | refl : Unmoved a a
  | add {b d : α} (start : Unmoved a b) (zero : (d == 0) = true) : Unmoved a (b + d)

theorem Scalar.Unmoved.trans {a b c : α} (h : Unmoved a b) (hMore : Unmoved b c) :
    Unmoved a c := by
  induction hMore with
  | refl => exact h
  | add _ hZero ih => exact ih.add hZero

namespace Row

open Scalar

variable {r other : Row α} {s t : Symbol} {k : α}

@[simp] theorem constant_addSymbol : (r.addSymbol s k).constant = r.constant := by
  rw [addSymbol]
  split <;> rfl

theorem constant_foldl_addSymbol {β : Type} (key : β → Symbol) (f : β → α) (items : List β) :
    (items.foldl (fun r i => r.addSymbol (key i) (f i)) r).constant = r.constant := by
  induction items generalizing r with
  | nil => rfl
  | cons i rest ih => exact ih.trans constant_addSymbol

@[simp] theorem constant_addRow :
    (r.addRow other k).constant = r.constant + other.constant * k :=
  constant_foldl_addSymbol Prod.fst (fun e => e.2 * k) other.cells.entries
    (r := r.addConstant (other.constant * k))

theorem unmoved_substitute (h : r.substituteMoves s other = false) :
    Unmoved r.constant (r.substitute s other).constant := by
  rw [substituteMoves] at h
  rw [substitute]
  cases hGet : r.cells.get? s with
  | none => exact .refl
  | some c =>
    rw [hGet] at h
    rw [constant_addRow]
    exact .add .refl (by simpa [movesConstant] using h)

/-- The exchange of a basic symbol for a cell of its row. -/
theorem constant_exchange_of_get? (hne : s.id ≠ t.id) {c : α} (hGet : r.cells.get? t = some c) :
    (r.exchange s t).constant = r.constant * (-1 / c) := by
  have hCell : (r.addSymbol s (-1)).cells.get? t = some c := by
    rw [addSymbol]
    split
    · exact hGet
    · rw [← hGet]
      exact (SymbolMap.get?_alter _ _ _ _).trans (if_neg hne)
  rw [exchange, solveFor, hCell]
  show (r.addSymbol s (-1)).constant * (-1 / c) = _
  rw [constant_addSymbol]

end Row

end SoftSimplex
