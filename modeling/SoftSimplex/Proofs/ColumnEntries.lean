import Mathlib
import SoftSimplex.SymbolMap.Lemmas

/-!
# Entries of column maps

A column number has at most one entry, so membership in the entries and the look-up by number say
the same. Altering one column changes sums over the entries by the contribution of that column.
-/

namespace SoftSimplex.SymbolMap
set_option autoImplicit false

variable {β γ : Type}

theorem get?_congr (m : SymbolMap β) {s t : Symbol} (h : s.id = t.id) : m.get? s = m.get? t := by
  rw [get?_eq_lookup, get?_eq_lookup, h]

theorem mem_keys_of_mem {m : SymbolMap β} {e : Symbol × β} (h : e ∈ m.entries) : e.1 ∈ m.keys :=
  List.mem_map.mpr ⟨e, h, rfl⟩

theorem eq_of_mem_of_id_eq {m : SymbolMap β} {d e : Symbol × β} (hd : d ∈ m.entries)
    (he : e ∈ m.entries) (hId : d.1.id = e.1.id) : d = e := by
  have hDistinct : (m.entries.map fun e => e.1.id).Nodup :=
    List.pairwise_map.mpr (m.ordered.imp Nat.ne_of_lt)
  exact List.inj_on_of_nodup_map hDistinct hd he hId

theorem key_eq_of_id_eq {m : SymbolMap β} {s t : Symbol} (hs : s ∈ m.keys) (ht : t ∈ m.keys)
    (hId : s.id = t.id) : s = t := by
  obtain ⟨d, hd, rfl⟩ := List.mem_map.mp hs
  obtain ⟨e, he, rfl⟩ := List.mem_map.mp ht
  rw [eq_of_mem_of_id_eq hd he hId]

theorem exists_mem_of_get? {m : SymbolMap β} {s : Symbol} {v : β} (h : m.get? s = some v) :
    ∃ t, t.id = s.id ∧ (t, v) ∈ m.entries := by
  obtain ⟨e, he, rfl⟩ := Option.map_eq_some_iff.mp h
  have hId : e.1.id = s.id := by simpa using List.find?_some he
  exact ⟨e.1, hId, List.mem_of_find?_eq_some he⟩

theorem get?_eq_none_iff {m : SymbolMap β} {s : Symbol} :
    m.get? s = none ↔ ∀ t ∈ m.keys, t.id ≠ s.id := by
  rw [get?, Option.map_eq_none_iff, List.find?_eq_none]
  simp [keys]

theorem get?_of_mem {m : SymbolMap β} {e : Symbol × β} (h : e ∈ m.entries) :
    m.get? e.1 = some e.2 := by
  cases hGet : m.get? e.1 with
  | none => exact absurd rfl (get?_eq_none_iff.mp hGet e.1 (mem_keys_of_mem h))
  | some v =>
    obtain ⟨t, hId, ht⟩ := exists_mem_of_get? hGet
    rw [← eq_of_mem_of_id_eq ht h hId]

theorem get?_eq_some_iff {m : SymbolMap β} {s : Symbol} {v : β} (hs : s ∈ m.keys) :
    m.get? s = some v ↔ (s, v) ∈ m.entries := by
  constructor
  · intro h
    obtain ⟨t, hId, ht⟩ := exists_mem_of_get? h
    exact key_eq_of_id_eq (mem_keys_of_mem ht) hs hId ▸ ht
  · exact get?_of_mem

theorem mem_keys_alterEntries {s t : Symbol} {f : Option β → Option β}
    {entries : List (Symbol × β)} (h : t ∈ (alterEntries s f entries).map Prod.fst) :
    t = s ∨ t ∈ entries.map Prod.fst := by
  have hOption : ∀ (u : Symbol) (v : Option β), t ∈ (v.toList.map (u, ·)).map Prod.fst → t = u := by
    intro u v hv
    cases v <;> simp_all
  induction entries with
  | nil => exact .inl (hOption s _ h)
  | cons d rest ih =>
    rw [alterEntries] at h
    split at h
    · rw [List.map_append, List.mem_append] at h
      exact h.imp_left (hOption s _)
    · split at h
      · rw [List.map_append, List.mem_append] at h
        cases h with
        | inl h =>
          exact .inr (List.mem_cons.mpr (.inl (hOption d.1 _ h)))
        | inr h =>
          exact .inr (List.mem_cons_of_mem _ h)
      · rcases List.mem_cons.mp h with rfl | h
        · exact .inr List.mem_cons_self
        · exact (ih h).imp_right (List.mem_cons_of_mem _)

theorem mem_keys_alter {m : SymbolMap β} {s t : Symbol} {f : Option β → Option β}
    (h : t ∈ (m.alter s f).keys) : t = s ∨ t ∈ m.keys :=
  mem_keys_alterEntries h

theorem mem_alter_iff_of_ne {m : SymbolMap β} {s : Symbol} {f : Option β → Option β}
    {e : Symbol × β} (hne : e.1.id ≠ s.id) : e ∈ (m.alter s f).entries ↔ e ∈ m.entries := by
  have hGet : (m.alter s f).get? e.1 = m.get? e.1 := by rw [get?_alter, if_neg (Ne.symm hne)]
  constructor
  · intro h
    have hKey : e.1 ∈ m.keys :=
      (mem_keys_alter (mem_keys_of_mem h)).resolve_left fun hs => hne (congrArg Symbol.id hs)
    rw [← get?_eq_some_iff hKey, ← hGet, get?_of_mem h]
  · intro h
    obtain ⟨t, hId, ht⟩ := exists_mem_of_get? (hGet.trans (get?_of_mem h))
    have hKey : t ∈ m.keys :=
      (mem_keys_alter (mem_keys_of_mem ht)).resolve_left fun hs => hne (hs ▸ hId.symm)
    rwa [key_eq_of_id_eq hKey (mem_keys_of_mem h) hId] at ht

theorem mem_alter {m : SymbolMap β} {s : Symbol} {f : Option β → Option β} {e : Symbol × β}
    (h : e ∈ (m.alter s f).entries) :
    (e.1.id = s.id ∧ f (m.get? s) = some e.2) ∨ (e.1.id ≠ s.id ∧ e ∈ m.entries) := by
  by_cases hId : e.1.id = s.id
  · have hGet := get?_of_mem h
    rw [get?_alter, if_pos hId.symm, get?_congr m hId] at hGet
    exact .inl ⟨hId, hGet⟩
  · exact .inr ⟨hId, (mem_alter_iff_of_ne hId).mp h⟩

theorem mem_erase_iff {m : SymbolMap β} {s : Symbol} {e : Symbol × β} :
    e ∈ (m.erase s).entries ↔ e ∈ m.entries ∧ e.1.id ≠ s.id := by
  constructor
  · intro h
    rcases mem_alter h with ⟨_, hNone⟩ | ⟨hne, h⟩
    · cases hNone
    · exact ⟨h, hne⟩
  · rintro ⟨h, hne⟩
    exact (mem_alter_iff_of_ne hne).mpr h

theorem mem_insert_iff {m : SymbolMap β} {s : Symbol} {v : β} (hNew : ∀ t ∈ m.keys, t.id ≠ s.id)
    {e : Symbol × β} : e ∈ (m.insert s v).entries ↔ e = (s, v) ∨ e ∈ m.entries := by
  constructor
  · intro h
    rcases mem_alter h with ⟨hId, hv⟩ | ⟨_, h⟩
    · have hKey : e.1 = s := (mem_keys_alter (mem_keys_of_mem h)).resolve_right
        fun hMem => hNew e.1 hMem hId
      exact .inl (Prod.ext hKey (Option.some.inj hv).symm)
    · exact .inr h
  · rintro (rfl | h)
    · obtain ⟨t, hId, ht⟩ := exists_mem_of_get?
        (show (m.insert s v).get? s = some v by rw [get?_insert, if_pos rfl])
      have hKey : t = s := (mem_keys_alter (mem_keys_of_mem ht)).resolve_right
        fun hMem => hNew t hMem hId
      rwa [hKey] at ht
    · exact (mem_alter_iff_of_ne (hNew e.1 (mem_keys_of_mem h))).mpr h

theorem mem_keys_erase_iff {m : SymbolMap β} {s t : Symbol} :
    t ∈ (m.erase s).keys ↔ t ∈ m.keys ∧ t.id ≠ s.id := by
  constructor
  · intro h
    obtain ⟨e, he, rfl⟩ := List.mem_map.mp h
    obtain ⟨he, hne⟩ := mem_erase_iff.mp he
    exact ⟨mem_keys_of_mem he, hne⟩
  · rintro ⟨h, hne⟩
    obtain ⟨e, he, rfl⟩ := List.mem_map.mp h
    exact mem_keys_of_mem (mem_erase_iff.mpr ⟨he, hne⟩)

theorem mem_keys_insert_iff {m : SymbolMap β} {s t : Symbol} {v : β}
    (hNew : ∀ c ∈ m.keys, c.id ≠ s.id) : t ∈ (m.insert s v).keys ↔ t = s ∨ t ∈ m.keys := by
  constructor
  · exact mem_keys_alter
  · rintro (rfl | h)
    · exact mem_keys_of_mem ((mem_insert_iff (v := v) hNew).mpr (.inl rfl))
    · obtain ⟨e, he, rfl⟩ := List.mem_map.mp h
      exact mem_keys_of_mem ((mem_insert_iff hNew).mpr (.inr he))

/-- The order of the columns leaves one way to list a set of entries. -/
theorem ext_mem {m n : SymbolMap β} (h : ∀ e, e ∈ m.entries ↔ e ∈ n.entries) : m = n := by
  have hDistinct : ∀ p : SymbolMap β, p.entries.Nodup := by
    intro p
    refine List.Pairwise.imp ?_ p.ordered
    rintro a b hLess rfl
    exact Nat.lt_irrefl _ hLess
  have hPerm := (List.perm_ext_iff_of_nodup (hDistinct m) (hDistinct n)).mpr h
  have hEntries : m.entries = n.entries :=
    List.Perm.eq_of_pairwise (fun _ _ _ _ hab hba => absurd hab (Nat.lt_asymm hba)) m.ordered
      n.ordered hPerm
  cases m
  cases n
  cases hEntries
  rfl

theorem erase_insert {m : SymbolMap β} {s : Symbol} {v : β} (hNew : ∀ t ∈ m.keys, t.id ≠ s.id) :
    (m.insert s v).erase s = m := by
  refine ext_mem fun e => ?_
  rw [mem_erase_iff, mem_insert_iff hNew]
  constructor
  · rintro ⟨rfl | he, hne⟩
    · exact absurd rfl hne
    · exact he
  · intro he
    exact ⟨.inr he, hNew e.1 (mem_keys_of_mem he)⟩

theorem erase_insert_of_ne {m : SymbolMap β} {s t : Symbol} {v : β}
    (hNew : ∀ c ∈ m.keys, c.id ≠ s.id) (hne : s.id ≠ t.id) :
    (m.insert s v).erase t = (m.erase t).insert s v := by
  have hStill : ∀ c ∈ (m.erase t).keys, c.id ≠ s.id := by
    intro c hc
    obtain ⟨e, he, rfl⟩ := List.mem_map.mp hc
    exact hNew e.1 (mem_keys_of_mem (mem_erase_iff.mp he).1)
  refine ext_mem fun e => ?_
  rw [mem_erase_iff, mem_insert_iff hNew, mem_insert_iff hStill, mem_erase_iff]
  constructor
  · rintro ⟨rfl | he, hOther⟩
    · exact .inl rfl
    · exact .inr ⟨he, hOther⟩
  · rintro (rfl | ⟨he, hOther⟩)
    · exact ⟨.inl rfl, hne⟩
    · exact ⟨.inr he, hOther⟩

theorem mem_replace_iff {m : SymbolMap β} {s : Symbol} {v : β} (hOld : s ∈ m.keys)
    {e : Symbol × β} :
    e ∈ (m.insert s v).entries ↔ e = (s, v) ∨ e ∈ m.entries ∧ e.1.id ≠ s.id := by
  constructor
  · intro h
    rcases mem_alter h with ⟨hId, hv⟩ | ⟨hne, h⟩
    · have hKey : e.1 = s := by
        cases mem_keys_alter (mem_keys_of_mem h) with
        | inl hKey =>
          exact hKey
        | inr hKey =>
          exact key_eq_of_id_eq hKey hOld hId
      exact .inl (Prod.ext hKey (Option.some.inj hv).symm)
    · exact .inr ⟨h, hne⟩
  · rintro (rfl | ⟨h, hne⟩)
    · obtain ⟨t, hId, ht⟩ := exists_mem_of_get?
        (show (m.insert s v).get? s = some v by rw [get?_insert, if_pos rfl])
      have hKey : t = s := by
        cases mem_keys_alter (mem_keys_of_mem ht) with
        | inl hKey =>
          exact hKey
        | inr hKey =>
          exact key_eq_of_id_eq hKey hOld hId
      rwa [hKey] at ht
    · exact (mem_alter_iff_of_ne hne).mpr h

theorem mem_mapValues_iff {m : SymbolMap β} {f : Symbol → β → γ} {e : Symbol × γ} :
    e ∈ (m.mapValues f).entries ↔ ∃ d ∈ m.entries, e = (d.1, f d.1 d.2) := by
  rw [mapValues, List.mem_map]
  simp only [eq_comm]

@[simp] theorem keys_mapValues (m : SymbolMap β) (f : Symbol → β → γ) :
    (m.mapValues f).keys = m.keys := by
  simp [keys, mapValues, Function.comp_def]

theorem get?_mapValues (m : SymbolMap β) (g : β → γ) (s : Symbol) :
    (m.mapValues fun _ v => g v).get? s = (m.get? s).map g := by
  rw [get?, get?, mapValues, List.find?_map, Option.map_map, Option.map_map]
  rfl

/-- A sum over the entries trades the old contribution of the altered column for the new one. -/
theorem sum_alterEntries {M : Type} [AddCommMonoid M] (g : Nat → β → M) (s : Symbol)
    (f : Option β → Option β) {entries : List (Symbol × β)} (hOrdered : InColumnOrder entries) :
    ((alterEntries s f entries).map fun e => g e.1.id e.2).sum
        + (lookup entries s.id).elim 0 (g s.id) =
      (entries.map fun e => g e.1.id e.2).sum + (f (lookup entries s.id)).elim 0 (g s.id) := by
  have hOption : ∀ (u : Symbol) (v : Option β),
      ((v.toList.map (u, ·)).map fun e => g e.1.id e.2).sum = v.elim 0 (g u.id) := by
    intro u v
    cases v <;> simp
  induction entries with
  | nil => simp only [alterEntries, lookup_nil, hOption, List.map_nil, List.sum_nil]; exact add_comm _ _
  | cons d rest ih =>
    obtain ⟨t, w⟩ := d
    obtain ⟨hAbove, hRest⟩ := List.pairwise_cons.mp hOrdered
    rw [alterEntries]
    split
    · rename_i hBelow
      have hNone : lookup ((t, w) :: rest) s.id = none := lookup_eq_none fun e he => by
        rcases List.mem_cons.mp he with rfl | he
        · exact Nat.ne_of_gt hBelow
        · exact Nat.ne_of_gt (Nat.lt_trans hBelow (hAbove e he))
      simp only [hNone, List.map_append, List.sum_append, hOption, Option.elim_none, add_zero]
      exact add_comm _ _
    · split
      · rename_i hSame
        rw [lookup_cons, if_pos hSame.symm]
        simp only [List.map_append, List.sum_append, hOption, List.map_cons, List.sum_cons,
          Option.elim_some, hSame]
        abel
      · rename_i hOther
        rw [lookup_cons, if_neg (Ne.symm hOther)]
        simp only [List.map_cons, List.sum_cons, add_assoc, ih hRest]

theorem sum_alter {M : Type} [AddCommMonoid M] (g : Nat → β → M) (m : SymbolMap β) (s : Symbol)
    (f : Option β → Option β) :
    ((m.alter s f).entries.map fun e => g e.1.id e.2).sum + (m.get? s).elim 0 (g s.id) =
      (m.entries.map fun e => g e.1.id e.2).sum + (f (m.get? s)).elim 0 (g s.id) :=
  sum_alterEntries g s f m.ordered

theorem length_eq_sum (m : SymbolMap β) : m.entries.length = (m.entries.map fun _ => 1).sum := by
  simp

theorem length_insert {m : SymbolMap β} {s : Symbol} (v : β) (hNew : m.get? s = none) :
    (m.insert s v).entries.length = m.entries.length + 1 := by
  have h := sum_alter (fun _ _ => 1) m s fun _ => some v
  rw [hNew] at h
  rw [length_eq_sum, length_eq_sum]
  exact h

theorem length_replace {m : SymbolMap β} {s : Symbol} {w : β} (v : β) (hOld : m.get? s = some w) :
    (m.insert s v).entries.length = m.entries.length := by
  have h := sum_alter (fun _ _ => 1) m s fun _ => some v
  rw [hOld] at h
  rw [length_eq_sum, length_eq_sum]
  exact Nat.add_right_cancel h

theorem length_erase {m : SymbolMap β} {s : Symbol} {v : β} (hOld : m.get? s = some v) :
    (m.erase s).entries.length + 1 = m.entries.length := by
  have h := sum_alter (fun _ _ => 1) m s fun _ => none
  rw [hOld] at h
  rw [length_eq_sum, length_eq_sum]
  exact h

@[simp] theorem length_mapValues (m : SymbolMap β) (f : Symbol → β → γ) :
    (m.mapValues f).entries.length = m.entries.length := by
  simp [mapValues]

end SoftSimplex.SymbolMap
