import Mathlib
import SoftSimplex.Registry.Lemmas

/-!
# Entries of registries

A key has at most one entry, so the look-up and membership in the entries say the same. A new key
adds one value at the end, and erasing a key takes one value out, wherever it stands.
-/

namespace SoftSimplex.Registry
set_option autoImplicit false

variable {κ β : Type} {r : Registry κ β} {k : κ} {v : β}

theorem mem_values_iff : v ∈ r.values ↔ ∃ k, (k, v) ∈ r.entries := by
  simp [values]

theorem eq_of_mem_of_key_eq {d e : κ × β} (hd : d ∈ r.entries) (he : e ∈ r.entries)
    (hKey : d.1 = e.1) : d = e :=
  List.inj_on_of_nodup_map r.distinct hd he hKey

variable [DecidableEq κ]

theorem get?_eq_some_iff : r.get? k = some v ↔ (k, v) ∈ r.entries := by
  rw [get?, Option.map_eq_some_iff]
  constructor
  · rintro ⟨e, hFound, rfl⟩
    have hKey : e.1 = k := by simpa using List.find?_some hFound
    exact hKey ▸ List.mem_of_find?_eq_some hFound
  · intro h
    have hSome : (r.entries.find? fun e => e.1 == k).isSome :=
      List.find?_isSome.mpr ⟨(k, v), h, by simp⟩
    obtain ⟨e, hFound⟩ := Option.isSome_iff_exists.mp hSome
    have hKey : e.1 = k := by simpa using List.find?_some hFound
    refine ⟨e, hFound, ?_⟩
    rw [eq_of_mem_of_key_eq (List.mem_of_find?_eq_some hFound) h hKey]

theorem get?_eq_none_iff : r.get? k = none ↔ ∀ e ∈ r.entries, e.1 ≠ k := by
  rw [get?, Option.map_eq_none_iff, List.find?_eq_none]
  simp

theorem insertEntries_of_forall_ne {entries : List (κ × β)} (h : ∀ e ∈ entries, e.1 ≠ k) :
    insertEntries k v entries = entries ++ [(k, v)] := by
  induction entries with
  | nil => rfl
  | cons e rest ih =>
    rw [insertEntries, if_neg (h e List.mem_cons_self),
      ih fun d hd => h d (List.mem_cons_of_mem _ hd), List.cons_append]

theorem entries_insert (h : r.get? k = none) : (r.insert k v).entries = r.entries ++ [(k, v)] :=
  insertEntries_of_forall_ne (get?_eq_none_iff.mp h)

theorem values_insert (h : r.get? k = none) : (r.insert k v).values = r.values ++ [v] := by
  rw [values, entries_insert h, List.map_append]
  rfl

theorem mem_insert_iff {e : κ × β} :
    e ∈ (r.insert k v).entries ↔ e = (k, v) ∨ e ∈ r.entries ∧ e.1 ≠ k := by
  rw [← get?_eq_some_iff (k := e.1) (v := e.2), get?_insert]
  by_cases hKey : k = e.1
  · rw [if_pos hKey, Option.some_inj]
    constructor
    · rintro rfl
      exact .inl (Prod.ext hKey.symm rfl)
    · rintro (rfl | ⟨_, hne⟩)
      · rfl
      · exact absurd hKey.symm hne
  · rw [if_neg hKey, get?_eq_some_iff]
    constructor
    · exact fun h => .inr ⟨h, Ne.symm hKey⟩
    · rintro (rfl | ⟨h, _⟩)
      · exact absurd rfl hKey
      · exact h

theorem mem_erase_iff {e : κ × β} : e ∈ (r.erase k).entries ↔ e ∈ r.entries ∧ e.1 ≠ k := by
  simp [erase, filter]

section Changes

variable {j : κ} {w : β} {entries : List (κ × β)}

omit [DecidableEq κ] in
theorem eq_of_entries_eq {q : Registry κ β} (h : r.entries = q.entries) : r = q := by
  cases r
  cases q
  cases h
  rfl

theorem insertEntries_insertEntries :
    insertEntries k w (insertEntries k v entries) = insertEntries k w entries := by
  induction entries with
  | nil => simp [insertEntries]
  | cons e rest ih =>
    by_cases hKey : e.1 = k
    · simp [insertEntries, hKey]
    · rw [insertEntries, if_neg hKey, insertEntries, if_neg hKey, ih, insertEntries, if_neg hKey]

theorem insert_insert : (r.insert k v).insert k w = r.insert k w :=
  eq_of_entries_eq insertEntries_insertEntries

theorem insert_of_get? (h : r.get? k = some v) : r.insert k v = r := by
  refine eq_of_entries_eq ?_
  have hFound : (r.entries.find? fun e => e.1 == k).map Prod.snd = some v := h
  show insertEntries k v r.entries = r.entries
  generalize r.entries = entries at hFound
  induction entries with
  | nil => cases hFound
  | cons e rest ih =>
    by_cases hKey : e.1 = k
    · rw [List.find?_cons_of_pos (by simpa using hKey)] at hFound
      rw [insertEntries, if_pos hKey, ← hKey, ← Option.some.inj hFound]
    · rw [List.find?_cons_of_neg (by simpa using hKey)] at hFound
      rw [insertEntries, if_neg hKey, ih hFound]

theorem erase_insert (h : r.get? k = none) : (r.insert k v).erase k = r := by
  refine eq_of_entries_eq ?_
  show (r.insert k v).entries.filter _ = _
  rw [entries_insert h, List.filter_append]
  have hOthers : r.entries.filter (fun e => !(e.1 == k)) = r.entries :=
    List.filter_eq_self.mpr fun e he => by simpa using get?_eq_none_iff.mp h e he
  rw [hOthers]
  simp

theorem erase_insert_of_ne (hne : k ≠ j) : (r.insert k v).erase j = (r.erase j).insert k v := by
  refine eq_of_entries_eq ?_
  show (insertEntries k v r.entries).filter _ = insertEntries k v (r.entries.filter _)
  generalize r.entries = entries
  induction entries with
  | nil => simp [insertEntries, hne]
  | cons e rest ih =>
    by_cases hKey : e.1 = k
    · simp [insertEntries, hKey, hne]
    · by_cases hOther : e.1 = j
      · have hNot : (!(e.1 == j)) = false := by simp [hOther]
        rw [insertEntries, if_neg hKey, List.filter_cons_of_neg (by simp [hNot]), ih,
          List.filter_cons_of_neg (by simp [hNot])]
      · have hKept : (!(e.1 == j)) = true := by simp [hOther]
        rw [insertEntries, if_neg hKey, List.filter_cons_of_pos (by simp [hKept]), ih,
          List.filter_cons_of_pos (by simp [hKept]), insertEntries, if_neg hKey]

/-- A new value that looks like the old one does not show. -/
theorem map_entries_insert {γ : Type} {f : κ × β → γ} (h : r.get? k = some v) (hSame : f (k, w) = f (k, v)) :
    (r.insert k w).entries.map f = r.entries.map f := by
  have hFound : (r.entries.find? fun e => e.1 == k).map Prod.snd = some v := h
  show (insertEntries k w r.entries).map f = r.entries.map f
  generalize r.entries = entries at hFound
  induction entries with
  | nil => cases hFound
  | cons e rest ih =>
    by_cases hKey : e.1 = k
    · rw [List.find?_cons_of_pos (by simpa using hKey)] at hFound
      have hEntry : e = (k, v) := Prod.ext hKey (Option.some.inj hFound)
      rw [insertEntries, if_pos hKey, List.map_cons, List.map_cons, hEntry, hSame]
    · rw [List.find?_cons_of_neg (by simpa using hKey)] at hFound
      rw [insertEntries, if_neg hKey, List.map_cons, List.map_cons, ih hFound]

/-- A known key keeps its place, so its value can be replaced before or after another insertion. -/
theorem insert_comm (hne : k ≠ j) {u : β} (h : r.get? j = some u) :
    (r.insert k v).insert j w = (r.insert j w).insert k v := by
  refine eq_of_entries_eq ?_
  have hKnown : ∃ e ∈ r.entries, e.1 = j := ⟨_, get?_eq_some_iff.mp h, rfl⟩
  show insertEntries j w (insertEntries k v r.entries) = insertEntries k v (insertEntries j w r.entries)
  generalize r.entries = entries at hKnown
  induction entries with
  | nil =>
    obtain ⟨e, he, _⟩ := hKnown
    cases he
  | cons e rest ih =>
    by_cases hKey : e.1 = k
    · have hOther : e.1 ≠ j := fun hj => hne (hKey.symm.trans hj)
      simp [insertEntries, hKey, hne]
    · by_cases hOther : e.1 = j
      · simp [insertEntries, hOther, hne.symm]
      · obtain ⟨d, hd, hd'⟩ := hKnown
        have hRest : ∃ d ∈ rest, d.1 = j := by
          rcases List.mem_cons.mp hd with rfl | hd
          · exact absurd hd' hOther
          · exact ⟨d, hd, hd'⟩
        simp only [insertEntries, if_neg hKey, if_neg hOther, ih hRest]

end Changes

theorem values_perm_erase (h : r.get? k = some v) : r.values.Perm (v :: (r.erase k).values) := by
  have hMem := get?_eq_some_iff.mp h
  have hSplit := List.filter_append_perm (fun e : κ × β => e.1 == k) r.entries
  have hOwn : r.entries.filter (fun e => e.1 == k) = [(k, v)] := by
    refine List.perm_singleton.mp ((List.perm_ext_iff_of_nodup ?_ (List.nodup_singleton _)).mpr ?_)
    · exact (List.Nodup.of_map _ r.distinct).filter _
    · intro e
      rw [List.mem_filter, List.mem_singleton, beq_iff_eq]
      constructor
      · rintro ⟨he, hKey⟩
        exact eq_of_mem_of_key_eq he hMem hKey
      · rintro rfl
        exact ⟨hMem, rfl⟩
  rw [hOwn] at hSplit
  exact (hSplit.map Prod.snd).symm

end SoftSimplex.Registry
