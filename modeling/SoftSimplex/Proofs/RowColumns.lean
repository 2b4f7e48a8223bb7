import SoftSimplex.Proofs.ColumnEntries
import SoftSimplex.Row

/-!
# Columns that a row can mention

No arithmetic is assumed here. A sum mentions columns of its summands only, and solving for a column
or replacing it takes it out of the row.
-/

namespace SoftSimplex.Row
set_option autoImplicit false

variable {α : Type} {P Q : Symbol → Prop} {r other : Row α} {s t : Symbol} {k : α}

def AllColumns (r : Row α) (P : Symbol → Prop) : Prop := ∀ s ∈ r.cells.keys, P s

instance decidableAllColumns (r : Row α) (P : Symbol → Prop) [DecidablePred P] :
    Decidable (r.AllColumns P) :=
  inferInstanceAs (Decidable (∀ s ∈ r.cells.keys, P s))

theorem AllColumns.imp (h : r.AllColumns P) (hPQ : ∀ s, P s → Q s) : r.AllColumns Q :=
  fun s hs => hPQ s (h s hs)

theorem allColumns_of_cells (c : α) : (⟨c, ∅⟩ : Row α).AllColumns P := by
  intro s hs
  cases hs

theorem AllColumns.mapCoefficients (h : r.AllColumns P) (f : α → α) :
    (r.mapCoefficients f).AllColumns P := by
  intro s hs
  exact h s (SymbolMap.keys_mapValues r.cells _ ▸ hs)

theorem mem_keys_remove_iff : t ∈ (r.remove s).cells.keys ↔ t ∈ r.cells.keys ∧ t.id ≠ s.id :=
  SymbolMap.mem_keys_erase_iff

theorem AllColumns.remove (h : r.AllColumns fun t => t.id ≠ s.id → P t) :
    (r.remove s).AllColumns P := by
  intro t ht
  obtain ⟨ht, hne⟩ := mem_keys_remove_iff.mp ht
  exact h t ht hne

theorem remove_of_avoids (h : r.AllColumns fun t => t.id ≠ s.id) : r.remove s = r := by
  have hCells : r.cells.erase s = r.cells := SymbolMap.ext_mem fun e =>
    SymbolMap.mem_erase_iff.trans (and_iff_left_of_imp fun he =>
      h e.1 (SymbolMap.mem_keys_of_mem he))
  rw [Row.remove, hCells]

theorem ne_of_get?_eq_none (h : r.cells.get? s = none) : r.AllColumns fun t => t.id ≠ s.id :=
  SymbolMap.get?_eq_none_iff.mp h

variable [Scalar α]

theorem AllColumns.addSymbol (h : r.AllColumns P) (hs : P s) : (r.addSymbol s k).AllColumns P := by
  rw [Row.addSymbol]
  split
  · exact h
  · intro t ht
    rcases SymbolMap.mem_keys_alter ht with rfl | ht
    · exact hs
    · exact h t ht

theorem AllColumns.foldl_addSymbol {β : Type} (key : β → Symbol) (f : β → α) (items : List β)
    (h : r.AllColumns P) (hItems : ∀ i ∈ items, P (key i)) :
    (items.foldl (fun r i => r.addSymbol (key i) (f i)) r).AllColumns P := by
  induction items generalizing r with
  | nil => exact h
  | cons i rest ih =>
    exact ih (h.addSymbol (hItems i List.mem_cons_self))
      fun j hj => hItems j (List.mem_cons_of_mem _ hj)

theorem AllColumns.addRow (h : r.AllColumns P) (hOther : other.AllColumns P) :
    (r.addRow other k).AllColumns P :=
  AllColumns.foldl_addSymbol Prod.fst (fun e => e.2 * k) other.cells.entries
    (r := r.addConstant (other.constant * k)) h
    fun _ he => hOther _ (SymbolMap.mem_keys_of_mem he)

theorem AllColumns.solveFor (h : r.AllColumns fun t => t.id ≠ s.id → P t) :
    (r.solveFor s).AllColumns P := by
  rw [Row.solveFor]
  split
  · rename_i hNone
    exact fun t ht => h t ht (ne_of_get?_eq_none hNone t ht)
  · exact h.remove.mapCoefficients _

theorem AllColumns.exchange (h : r.AllColumns fun u => u.id ≠ t.id → P u)
    (hs : s.id ≠ t.id → P s) : (r.exchange s t).AllColumns P :=
  (h.addSymbol hs).solveFor

theorem AllColumns.substitute (h : r.AllColumns fun t => t.id ≠ s.id → P t)
    (hOther : other.AllColumns P) : (r.substitute s other).AllColumns P := by
  rw [Row.substitute]
  split
  · rename_i hNone
    exact fun t ht => h t ht (ne_of_get?_eq_none hNone t ht)
  · exact h.remove.addRow hOther

theorem substitute_of_avoids (h : r.AllColumns fun t => t.id ≠ s.id) :
    r.substitute s other = r := by
  rw [Row.substitute, SymbolMap.get?_eq_none_iff.mpr h]

theorem coefficient_of_mem {e : Symbol × α} (h : e ∈ r.cells.entries) :
    r.coefficient e.1 = e.2 := by
  rw [coefficient, SymbolMap.get?_of_mem h, Option.getD_some]

theorem coefficient_of_avoids (h : r.AllColumns fun t => t.id ≠ s.id) : r.coefficient s = 0 := by
  rw [coefficient, SymbolMap.get?_eq_none_iff.mpr h, Option.getD_none]

theorem coefficient_congr (r : Row α) (h : s.id = t.id) : r.coefficient s = r.coefficient t := by
  rw [coefficient, coefficient, SymbolMap.get?_congr _ h]

end SoftSimplex.Row
