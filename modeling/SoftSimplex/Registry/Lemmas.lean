import SoftSimplex.Registry

/-!
# Look-ups in registries

What each operation does to the keys and to the value that is held for a key.
-/

namespace SoftSimplex.Registry
set_option autoImplicit false

variable {κ β : Type} [DecidableEq κ]

theorem get?_empty (k : κ) : (∅ : Registry κ β).get? k = none := rfl

theorem contains_eq_true_iff (r : Registry κ β) (k : κ) :
    r.contains k = true ↔ k ∈ r.keys := by
  rw [contains, get?, Option.isSome_map, List.find?_isSome, keys, List.mem_map]
  simp only [beq_iff_eq]

theorem find?_insertEntries (j k : κ) (v : β) (entries : List (κ × β)) :
    ((insertEntries k v entries).find? fun e => e.1 == j).map Prod.snd =
      if k = j then some v else (entries.find? fun e => e.1 == j).map Prod.snd := by
  induction entries with
  | nil => by_cases h : k = j <;> simp [insertEntries, h]
  | cons e rest ih =>
    rw [insertEntries]
    by_cases hk : e.1 = k
    · by_cases hj : k = j
      · simp [hk, hj]
      · rw [if_pos hk, if_neg hj, List.find?_cons_of_neg (by simpa using hj),
          List.find?_cons_of_neg (by simpa [hk] using hj)]
    · rw [if_neg hk]
      by_cases hj : e.1 = j
      · have hne : k ≠ j := fun h => hk (hj.trans h.symm)
        rw [List.find?_cons_of_pos (by simpa using hj), if_neg hne,
          List.find?_cons_of_pos (by simpa using hj)]
      · rw [List.find?_cons_of_neg (by simpa using hj), ih,
          List.find?_cons_of_neg (by simpa using hj)]

theorem get?_insert (r : Registry κ β) (k j : κ) (v : β) :
    (r.insert k v).get? j = if k = j then some v else r.get? j :=
  find?_insertEntries j k v r.entries

/-- A new key goes to the end; a known one stays in its place. -/
theorem keys_insert (r : Registry κ β) (k : κ) (v : β) :
    (r.insert k v).keys = if k ∈ r.keys then r.keys else r.keys ++ [k] :=
  keys_insertEntries k v r.entries

theorem keys_erase (r : Registry κ β) (k : κ) :
    (r.erase k).keys = r.keys.filter fun j => !(j == k) := by
  simp only [keys, erase, filter, List.filter_map]
  rfl

theorem get?_erase (r : Registry κ β) (k j : κ) :
    (r.erase k).get? j = if k = j then none else r.get? j := by
  simp only [get?, erase, filter, List.find?_filter]
  split
  · rename_i h
    rw [Option.map_eq_none_iff, List.find?_eq_none]
    rintro e _
    simp [h]
  · rename_i h
    congr 2
    funext e
    by_cases he : e.1 = j
    · simp [he, Ne.symm h]
    · simp [he]

end SoftSimplex.Registry
