import SoftSimplex.Symbol

/-!
# Maps keyed by columns

A finite map from columns to values, kept as a list in column order. The order is part of the type,
so a scan of the entries is a scan by ascending column number. A key that is already present keeps
its kind when its value is replaced.
-/

namespace SoftSimplex
set_option autoImplicit false

/-- Earlier entries have smaller column numbers. -/
def InColumnOrder {β : Type} (entries : List (Symbol × β)) : Prop :=
  entries.Pairwise fun a b => a.1.id < b.1.id

structure SymbolMap (β : Type) where
  entries : List (Symbol × β)
  ordered : InColumnOrder entries

namespace SymbolMap

variable {β γ : Type}

def empty : SymbolMap β := ⟨[], List.Pairwise.nil⟩

instance : EmptyCollection (SymbolMap β) := ⟨empty⟩

instance : Inhabited (SymbolMap β) := ⟨empty⟩

/-- Replaces what a list in column order holds for one column by a function of it. -/
def alterEntries (s : Symbol) (f : Option β → Option β) : List (Symbol × β) → List (Symbol × β)
  | [] => (f none).toList.map (s, ·)
  | (t, w) :: rest =>
    if s.id < t.id then (f none).toList.map (s, ·) ++ (t, w) :: rest
    else if s.id = t.id then (f (some w)).toList.map (t, ·) ++ rest
    else (t, w) :: alterEntries s f rest

/-- Altering one column brings in no other column number. -/
theorem id_mem_alterEntries {s : Symbol} {f : Option β → Option β} {entries : List (Symbol × β)}
    {e : Symbol × β} (h : e ∈ alterEntries s f entries) :
    e.1.id = s.id ∨ ∃ d ∈ entries, d.1.id = e.1.id := by
  induction entries with
  | nil =>
    obtain ⟨v, _, rfl⟩ := List.mem_map.mp h
    exact .inl rfl
  | cons d rest ih =>
    obtain ⟨t, w⟩ := d
    rw [alterEntries] at h
    split at h
    · rcases List.mem_append.mp h with h | h
      · obtain ⟨v, _, rfl⟩ := List.mem_map.mp h
        exact .inl rfl
      · exact .inr ⟨e, h, rfl⟩
    · split at h
      · rename_i hId
        rcases List.mem_append.mp h with h | h
        · obtain ⟨v, _, rfl⟩ := List.mem_map.mp h
          exact .inl hId.symm
        · exact .inr ⟨e, List.mem_cons_of_mem _ h, rfl⟩
      · rcases List.mem_cons.mp h with rfl | h
        · exact .inr ⟨_, List.mem_cons_self, rfl⟩
        · rcases ih h with h | ⟨d, hd, hId⟩
          · exact .inl h
          · exact .inr ⟨d, List.mem_cons_of_mem _ hd, hId⟩

/-- At most one entry before a list of larger columns leaves it in order. -/
theorem inColumnOrder_option_append {t : Symbol} {v : Option β} {rest : List (Symbol × β)}
    (hRest : InColumnOrder rest) (hAbove : ∀ e ∈ rest, t.id < e.1.id) :
    InColumnOrder (v.toList.map (t, ·) ++ rest) := by
  cases v with
  | none => exact hRest
  | some v => exact List.pairwise_cons.mpr ⟨hAbove, hRest⟩

theorem inColumnOrder_alterEntries {s : Symbol} {f : Option β → Option β}
    {entries : List (Symbol × β)} (h : InColumnOrder entries) :
    InColumnOrder (alterEntries s f entries) := by
  induction entries with
  | nil => simpa [alterEntries] using inColumnOrder_option_append (v := f none) h (by simp)
  | cons d rest ih =>
    obtain ⟨t, w⟩ := d
    obtain ⟨hAbove, hRest⟩ := List.pairwise_cons.mp h
    rw [alterEntries]
    split
    · rename_i hBelow
      refine inColumnOrder_option_append h fun e he => ?_
      rcases List.mem_cons.mp he with rfl | he
      · exact hBelow
      · exact Nat.lt_trans hBelow (hAbove e he)
    · split
      · exact inColumnOrder_option_append hRest hAbove
      · refine List.pairwise_cons.mpr ⟨fun e he => ?_, ih hRest⟩
        rcases id_mem_alterEntries he with hId | ⟨d, hd, hId⟩
        · show t.id < e.1.id
          omega
        · exact hId ▸ hAbove d hd

def alter (m : SymbolMap β) (s : Symbol) (f : Option β → Option β) : SymbolMap β :=
  ⟨alterEntries s f m.entries, inColumnOrder_alterEntries m.ordered⟩

def get? (m : SymbolMap β) (s : Symbol) : Option β :=
  (m.entries.find? fun e => e.1.id == s.id).map Prod.snd

def contains (m : SymbolMap β) (s : Symbol) : Bool := (m.get? s).isSome

def insert (m : SymbolMap β) (s : Symbol) (v : β) : SymbolMap β := m.alter s fun _ => some v

def erase (m : SymbolMap β) (s : Symbol) : SymbolMap β := m.alter s fun _ => none

def keys (m : SymbolMap β) : List Symbol := m.entries.map Prod.fst

def isEmpty (m : SymbolMap β) : Bool := m.entries.isEmpty

def mapValues (m : SymbolMap β) (f : Symbol → β → γ) : SymbolMap γ where
  entries := m.entries.map fun e => (e.1, f e.1 e.2)
  ordered := by
    unfold InColumnOrder
    rw [List.pairwise_map]
    exact m.ordered

end SymbolMap

end SoftSimplex
