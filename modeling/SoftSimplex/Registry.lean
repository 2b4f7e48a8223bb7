/-!
# Maps in order of first insertion

A finite map kept as a list of its entries, oldest key first. Replacing a value leaves its key in
place, and removing a key closes the gap. No two entries have one key; that is part of the type.
-/

namespace SoftSimplex
set_option autoImplicit false

structure Registry (κ β : Type) where
  entries : List (κ × β)
  distinct : (entries.map Prod.fst).Nodup

namespace Registry

variable {κ β : Type}

def empty : Registry κ β := ⟨[], List.Pairwise.nil⟩

instance : EmptyCollection (Registry κ β) := ⟨empty⟩

instance : Inhabited (Registry κ β) := ⟨empty⟩

def keys (r : Registry κ β) : List κ := r.entries.map Prod.fst

def values (r : Registry κ β) : List β := r.entries.map Prod.snd

variable [DecidableEq κ]

def get? (r : Registry κ β) (k : κ) : Option β :=
  (r.entries.find? fun e => e.1 == k).map Prod.snd

def contains (r : Registry κ β) (k : κ) : Bool := (r.get? k).isSome

/-- Replaces the value of a key in place, or adds the key at the end. -/
def insertEntries (k : κ) (v : β) : List (κ × β) → List (κ × β)
  | [] => [(k, v)]
  | e :: rest => if e.1 = k then (k, v) :: rest else e :: insertEntries k v rest

theorem keys_insertEntries (k : κ) (v : β) (entries : List (κ × β)) :
    (insertEntries k v entries).map Prod.fst =
      if k ∈ entries.map Prod.fst then entries.map Prod.fst
      else entries.map Prod.fst ++ [k] := by
  induction entries with
  | nil => simp [insertEntries]
  | cons e rest ih =>
    by_cases h : e.1 = k
    · simp [insertEntries, h]
    · have hne : k ≠ e.1 := fun hk => h hk.symm
      have hMem : k ∈ (e :: rest).map Prod.fst ↔ k ∈ rest.map Prod.fst := by simp [hne]
      rw [insertEntries, if_neg h, List.map_cons, ih]
      by_cases hIn : k ∈ rest.map Prod.fst
      · rw [if_pos hIn, if_pos (hMem.mpr hIn), List.map_cons]
      · rw [if_neg hIn, if_neg fun hk => hIn (hMem.mp hk), List.map_cons, List.cons_append]

def insert (r : Registry κ β) (k : κ) (v : β) : Registry κ β where
  entries := insertEntries k v r.entries
  distinct := by
    rw [keys_insertEntries]
    split
    · exact r.distinct
    · rename_i h
      refine List.nodup_append.mpr ⟨r.distinct, by simp, fun a ha b hb => ?_⟩
      rw [List.mem_singleton.mp hb]
      exact fun hab => h (hab ▸ ha)

def filter (r : Registry κ β) (p : κ → β → Bool) : Registry κ β where
  entries := r.entries.filter fun e => p e.1 e.2
  distinct := r.distinct.sublist (List.filter_sublist.map Prod.fst)

def erase (r : Registry κ β) (k : κ) : Registry κ β := r.filter fun j _ => !(j == k)

end Registry

end SoftSimplex
