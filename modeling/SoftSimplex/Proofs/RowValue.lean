import Mathlib
import SoftSimplex.Evaluation
import SoftSimplex.Proofs.RowColumns

/-!
# Rows as affine functions

Over the rational numbers every row operation acts on the values of the row as its name says, with
nothing lost. The constant and the coefficients of a row are themselves values, or differences of
values, so the effect of an operation on them follows from its effect on values.
-/

namespace SoftSimplex.Row
set_option autoImplicit false

variable (r other : Row Rat) (a b : Nat → Rat) (s t : Symbol) (k : Rat)

theorem elim_mul_eq_getD (cell : Option Rat) (x : Rat) :
    cell.elim 0 (fun c => c * x) = cell.getD 0 * x := by
  cases cell <;> simp

theorem addToCell_eq (cell : Option Rat) :
    addToCell k cell = if cell.getD 0 + k = 0 then none else some (cell.getD 0 + k) := by
  cases cell <;> simp [addToCell, Scalar.negligible]

theorem getD_addToCell (cell : Option Rat) : (addToCell k cell).getD 0 = cell.getD 0 + k := by
  rw [addToCell_eq]
  split
  · rename_i hZero
    exact hZero.symm
  · rfl

theorem ne_zero_of_addToCell {cell : Option Rat} {c : Rat} (h : addToCell k cell = some c) :
    c ≠ 0 := by
  rw [addToCell_eq] at h
  split at h
  · cases h
  · rename_i hne
    exact Option.some.inj h ▸ hne

@[simp] theorem value_addConstant : (r.addConstant k).value a = r.value a + k := by
  simp only [value, addConstant]
  ring

@[simp] theorem value_addSymbol : (r.addSymbol s k).value a = r.value a + k * a s.id := by
  rw [addSymbol]
  split
  · rename_i hZero
    rw [show k = 0 by simpa using hZero]
    ring
  · have h := SymbolMap.sum_alter (fun n c => c * a n) r.cells s (addToCell k)
    rw [elim_mul_eq_getD, elim_mul_eq_getD, getD_addToCell] at h
    simp only [value]
    linarith

theorem value_foldl_addSymbol {β : Type} (key : β → Symbol) (f : β → Rat) (items : List β) :
    (items.foldl (fun r i => r.addSymbol (key i) (f i)) r).value a =
      r.value a + (items.map fun i => f i * a (key i).id).sum := by
  induction items generalizing r with
  | nil => simp
  | cons i rest ih =>
    rw [List.foldl_cons, ih, value_addSymbol, List.map_cons, List.sum_cons, add_assoc]

@[simp] theorem value_addRow : (r.addRow other k).value a = r.value a + k * other.value a := by
  have hScale : (other.cells.entries.map fun e => e.2 * k * a e.1.id).sum =
      k * (other.cells.entries.map fun e => e.2 * a e.1.id).sum := by
    rw [← List.sum_map_mul_left]
    congr 1
    exact List.map_congr_left fun e _ => by ring
  rw [addRow, value_foldl_addSymbol _ _ Prod.fst fun e => e.2 * k]
  rw [value_addConstant, hScale]
  simp only [value]
  ring

@[simp] theorem value_remove : (r.remove s).value a = r.value a - r.coefficient s * a s.id := by
  have h := SymbolMap.sum_alter (fun n c => c * a n) r.cells s fun _ => none
  rw [elim_mul_eq_getD, Option.elim_none, add_zero] at h
  simp only [value, remove, SymbolMap.erase, coefficient]
  linarith

@[simp] theorem value_scale : (r.scale k).value a = r.value a * k := by
  have hScale : (r.cells.entries.map fun e => e.2 * k * a e.1.id).sum =
      (r.cells.entries.map fun e => e.2 * a e.1.id).sum * k := by
    rw [← List.sum_map_mul_right]
    congr 1
    exact List.map_congr_left fun e _ => by ring
  simp only [value, scale, mapCoefficients, SymbolMap.mapValues, List.map_map, Function.comp_def]
  rw [hScale]
  ring

@[simp] theorem value_reverseSign : r.reverseSign.value a = -r.value a := by
  have hScale : (r.cells.entries.map fun e => -e.2 * a e.1.id).sum =
      -(r.cells.entries.map fun e => e.2 * a e.1.id).sum := by
    rw [← neg_one_mul, ← List.sum_map_mul_left]
    congr 1
    exact List.map_congr_left fun e _ => by ring
  simp only [value, reverseSign, mapCoefficients, SymbolMap.mapValues, List.map_map,
    Function.comp_def]
  rw [hScale]
  ring

variable {r other a b s t k}

theorem value_congr (h : r.AllColumns fun u => a u.id = b u.id) : r.value a = r.value b := by
  simp only [value]
  congr 2
  exact List.map_congr_left fun e he => by rw [h e.1 (SymbolMap.mem_keys_of_mem he)]

theorem value_update (r : Row Rat) (a : Nat → Rat) (s : Symbol) (x : Rat) :
    r.value (Function.update a s.id x) = r.value a + r.coefficient s * (x - a s.id) := by
  have hOthers : (r.remove s).value (Function.update a s.id x) = (r.remove s).value a := by
    refine value_congr fun u hu => ?_
    show Function.update a s.id x u.id = a u.id
    rw [Function.update_of_ne (mem_keys_remove_iff.mp hu).2]
  rw [value_remove, value_remove, Function.update_self] at hOthers
  linarith

theorem constant_eq_value (r : Row Rat) : r.constant = r.value 0 := by
  simp [value]

theorem value_of_vanish (h : r.AllColumns fun c => a c.id = 0) : r.value a = r.constant := by
  rw [r.constant_eq_value]
  exact value_congr h

theorem coefficient_eq_value_sub (r : Row Rat) (s : Symbol) :
    r.coefficient s = r.value (Function.update 0 s.id 1) - r.value 0 := by
  rw [value_update]
  simp

theorem coefficient_addSymbol :
    (r.addSymbol s k).coefficient t = r.coefficient t + if s.id = t.id then k else 0 := by
  rw [coefficient_eq_value_sub, coefficient_eq_value_sub, value_addSymbol, value_addSymbol,
    Function.update_apply]
  split
  · simp only [*, Pi.zero_apply]
    ring
  · simp only [Pi.zero_apply]
    ring

theorem coefficient_reverseSign : r.reverseSign.coefficient s = -r.coefficient s := by
  simp only [coefficient_eq_value_sub, value_reverseSign]
  ring

/-- Solving `0 = r` for a column gives the value that the column must have. -/
theorem value_solveFor (h : r.coefficient s ≠ 0) :
    (r.solveFor s).value a = a s.id - r.value a / r.coefficient s := by
  rw [solveFor]
  split
  · rename_i hNone
    exact absurd (coefficient_of_avoids (ne_of_get?_eq_none hNone)) h
  · rename_i c hSome
    have hc : r.coefficient s = c := by rw [coefficient, hSome, Option.getD_some]
    rw [value_scale, value_remove]
    rw [hc] at h ⊢
    field_simp
    ring

theorem value_substitute (r other : Row Rat) (s : Symbol) (a : Nat → Rat) :
    (r.substitute s other).value a = r.value a + r.coefficient s * (other.value a - a s.id) := by
  rw [substitute]
  split
  · rename_i hNone
    rw [coefficient_of_avoids (ne_of_get?_eq_none hNone)]
    ring
  · rename_i c hSome
    have hc : r.coefficient s = c := by rw [coefficient, hSome, Option.getD_some]
    rw [value_addRow, value_remove, hc]
    ring

theorem constant_substitute :
    (r.substitute s other).constant = r.constant + r.coefficient s * other.constant := by
  simp only [constant_eq_value, value_substitute, Pi.zero_apply, sub_zero]

theorem coefficient_substitute_of_ne (h : t.id ≠ s.id) :
    (r.substitute s other).coefficient t =
      r.coefficient t + r.coefficient s * other.coefficient t := by
  rw [coefficient_eq_value_sub, coefficient_eq_value_sub r t, coefficient_eq_value_sub other t,
    value_substitute, value_substitute, Function.update_of_ne (Ne.symm h)]
  simp only [Pi.zero_apply]
  ring

section Exchange

variable (hBasic : r.coefficient s = 0) (hEntering : r.coefficient t ≠ 0)
include hBasic hEntering

theorem ne_of_coefficients : s.id ≠ t.id := by
  intro h
  exact hEntering (coefficient_congr r h ▸ hBasic)

theorem value_exchange :
    (r.exchange s t).value a = a t.id - (r.value a - a s.id) / r.coefficient t := by
  have hCoefficient : (r.addSymbol s (-1)).coefficient t = r.coefficient t := by
    rw [coefficient_addSymbol, if_neg (ne_of_coefficients hBasic hEntering), add_zero]
  rw [exchange, value_solveFor (by rwa [hCoefficient]), hCoefficient, value_addSymbol]
  ring

theorem constant_exchange : (r.exchange s t).constant = -(r.constant / r.coefficient t) := by
  rw [constant_eq_value, value_exchange hBasic hEntering, constant_eq_value]
  simp only [Pi.zero_apply]
  ring

theorem coefficient_exchange_leaving : (r.exchange s t).coefficient s = 1 / r.coefficient t := by
  rw [coefficient_eq_value_sub, value_exchange hBasic hEntering, value_exchange hBasic hEntering,
    value_update, Function.update_self,
    Function.update_of_ne (ne_of_coefficients hBasic hEntering).symm, hBasic]
  simp only [Pi.zero_apply]
  ring

theorem coefficient_exchange_of_ne {u : Symbol} (hs : u.id ≠ s.id) (ht : u.id ≠ t.id) :
    (r.exchange s t).coefficient u = -(r.coefficient u / r.coefficient t) := by
  rw [coefficient_eq_value_sub, value_exchange hBasic hEntering, value_exchange hBasic hEntering,
    value_update, Function.update_of_ne (Ne.symm hs), Function.update_of_ne (Ne.symm ht)]
  simp only [Pi.zero_apply]
  ring

end Exchange

/-- No cell holds a zero, so a column is mentioned exactly if the value depends on it. -/
def Reduced (r : Row Rat) : Prop := ∀ e ∈ r.cells.entries, e.2 ≠ 0

theorem reduced_of_constant (c : Rat) : (⟨c, ∅⟩ : Row Rat).Reduced := by
  intro e he
  cases he

theorem Reduced.addSymbol (h : r.Reduced) : (r.addSymbol s k).Reduced := by
  rw [Row.addSymbol]
  split
  · exact h
  · intro e he
    rcases SymbolMap.mem_alter he with ⟨_, hCell⟩ | ⟨_, he⟩
    · exact ne_zero_of_addToCell k hCell
    · exact h e he

theorem Reduced.foldl_addSymbol {β : Type} (key : β → Symbol) (f : β → Rat) (items : List β)
    (h : r.Reduced) : (items.foldl (fun r i => r.addSymbol (key i) (f i)) r).Reduced := by
  induction items generalizing r with
  | nil => exact h
  | cons i rest ih => exact ih h.addSymbol

theorem Reduced.addRow (h : r.Reduced) : (r.addRow other k).Reduced :=
  Reduced.foldl_addSymbol Prod.fst (fun e => e.2 * k) other.cells.entries
    (r := r.addConstant (other.constant * k)) h

theorem Reduced.remove (h : r.Reduced) : (r.remove s).Reduced :=
  fun e he => h e (SymbolMap.mem_erase_iff.mp he).1

theorem Reduced.mapCoefficients (h : r.Reduced) {f : Rat → Rat} (hf : ∀ c, c ≠ 0 → f c ≠ 0) :
    (r.mapCoefficients f).Reduced := by
  intro e he
  obtain ⟨d, hd, rfl⟩ := SymbolMap.mem_mapValues_iff.mp he
  exact hf d.2 (h d hd)

theorem Reduced.reverseSign (h : r.Reduced) : r.reverseSign.Reduced :=
  h.mapCoefficients fun _ hc => neg_ne_zero.mpr hc

theorem Reduced.solveFor (h : r.Reduced) : (r.solveFor s).Reduced := by
  rw [Row.solveFor]
  split
  · exact h
  · rename_i c hSome
    obtain ⟨u, _, hu⟩ := SymbolMap.exists_mem_of_get? hSome
    have hFactor : -1 / c ≠ 0 := div_ne_zero (by norm_num) (h _ hu)
    exact h.remove.mapCoefficients fun d hd => mul_ne_zero hd hFactor

theorem Reduced.exchange (h : r.Reduced) : (r.exchange s t).Reduced := h.addSymbol.solveFor

theorem Reduced.substitute (h : r.Reduced) : (r.substitute s other).Reduced := by
  rw [Row.substitute]
  split
  · exact h
  · exact h.remove.addRow

theorem Reduced.coefficient_ne_zero (h : r.Reduced) (hs : s ∈ r.cells.keys) :
    r.coefficient s ≠ 0 := by
  obtain ⟨e, he, rfl⟩ := List.mem_map.mp hs
  rw [coefficient_of_mem he]
  exact h e he

theorem Reduced.avoids_iff (h : r.Reduced) :
    (r.AllColumns fun u => u.id ≠ s.id) ↔ r.coefficient s = 0 := by
  constructor
  · exact coefficient_of_avoids
  · intro hZero u hu hId
    exact h.coefficient_ne_zero hu (coefficient_congr r hId ▸ hZero)

end SoftSimplex.Row
