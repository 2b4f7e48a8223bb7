import Mathlib
import SoftSimplex.Evaluation

/-!
# Values of expressions

The operations of expressions are those of their values. Merging terms of one variable leaves the value as
it is.
-/

namespace SoftSimplex
set_option autoImplicit false

namespace Expression

variable {e f : Expression Rat} {a : Variable → Rat} {v : Variable} {t : Term Rat} {k : Rat}

theorem value_add : (e.add f).value a = e.value a + f.value a := by
  simp only [value, add, List.map_append, List.sum_append]
  ring

theorem value_scale : (e.scale k).value a = e.value a * k := by
  have hTerm : Term.value a ∘ (fun t => t.scale k) = fun t => Term.value a t * k := by
    funext t
    simp only [Function.comp, Term.value, Term.scale]
    ring
  rw [value, value, scale, List.map_map, hTerm, List.sum_map_mul_right]
  ring

theorem value_neg : e.neg.value a = -e.value a := by
  rw [neg, value_scale, mul_neg_one]

theorem value_sub : (e.sub f).value a = e.value a - f.value a := by
  rw [sub, value_add, value_neg, sub_eq_add_neg]

@[simp]
theorem value_ofTerm : (ofTerm t : Expression Rat).value a = t.value a := by
  simp [value, ofTerm]

@[simp]
theorem value_ofVariable : (ofVariable v : Expression Rat).value a = a v := by
  simp [ofVariable, Term.ofVariable, Term.value]

@[simp]
theorem value_ofConstant : (ofConstant k : Expression Rat).value a = k := by
  simp [value, ofConstant]

theorem sum_mergeTerm (t : Term Rat) (terms : List (Term Rat)) :
    ((mergeTerm t terms).map (Term.value a)).sum =
      (terms.map (Term.value a)).sum + t.value a := by
  induction terms with
  | nil => simp [mergeTerm]
  | cons u rest ih =>
    rw [mergeTerm]
    split
    · rename_i hSame
      simp only [List.map_cons, List.sum_cons, Term.value, hSame]
      ring
    · rw [List.map_cons, List.sum_cons, ih, List.map_cons, List.sum_cons, add_assoc]

theorem value_reduced : e.reduced.value a = e.value a := by
  have hMerge : ∀ terms merged : List (Term Rat),
      ((terms.foldl (fun merged t => mergeTerm t merged) merged).map (Term.value a)).sum =
        (merged.map (Term.value a)).sum + (terms.map (Term.value a)).sum := by
    intro terms
    induction terms with
    | nil => simp
    | cons t rest ih =>
      intro merged
      rw [List.foldl_cons, ih, sum_mergeTerm, List.map_cons, List.sum_cons, add_assoc]
  rw [value, value, reduced, hMerge, List.map_nil, List.sum_nil, zero_add]

end Expression

end SoftSimplex
