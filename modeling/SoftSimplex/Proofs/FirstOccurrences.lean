import SoftSimplex.ChangeLog
import SoftSimplex.Proofs.VariableIndex

/-!
# First occurrences

Reading a list from the left and passing over what has been met before leaves the first occurrences. An
expression that is merged keeps its variables that way, and a log its marks.
-/

namespace SoftSimplex
set_option autoImplicit false

section Lists

variable {β : Type} [DecidableEq β]

theorem eraseDups_append_singleton (l : List β) (x : β) :
    (l ++ [x]).eraseDups = if x ∈ l then l.eraseDups else l.eraseDups ++ [x] := by
  rw [List.eraseDups_append, List.removeAll]
  split
  · rename_i hMet
    simp [hMet]
  · rename_i hNew
    simp [hNew, List.eraseDups_cons]

theorem nodup_eraseDups (l : List β) : l.eraseDups.Nodup := by
  induction l using List.reverseRecOn with
  | nil => exact List.nodup_nil
  | append_singleton l x ih =>
    rw [eraseDups_append_singleton]
    split
    · exact ih
    · rename_i hNew
      have hApart : x ∉ l.eraseDups := mt List.mem_eraseDups.mp hNew
      exact ih.append (List.nodup_singleton x) (List.disjoint_singleton.mpr hApart)

theorem length_eraseDups (l : List β) : l.eraseDups.length = l.toFinset.card := by
  rw [← List.toFinset_card_of_nodup (nodup_eraseDups l)]
  congr 1
  ext x
  rw [List.mem_toFinset, List.mem_toFinset, List.mem_eraseDups]

end Lists

theorem Expression.vars_reduced {α : Type} [Scalar α] (e : Expression α) :
    e.reduced.terms.map Term.var = (e.terms.map Term.var).eraseDups := by
  rw [reduced]
  induction e.terms using List.reverseRecOn with
  | nil => rfl
  | append_singleton terms t ih =>
    rw [List.foldl_append, List.foldl_cons, List.foldl_nil, vars_mergeTerm, ih, List.map_append,
      List.map_singleton, eraseDups_append_singleton]
    simp only [List.mem_eraseDups]

theorem ChangeLog.recording_mark {log : ChangeLog} {seen : List Variable}
    (h : log.recording = seen.eraseDups) (v : Variable) :
    (log.mark v).recording = (seen ++ [v]).eraseDups := by
  rw [eraseDups_append_singleton, mark, h]
  simp only [List.mem_eraseDups]
  split
  · exact h
  · rfl

end SoftSimplex
