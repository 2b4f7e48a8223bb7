import SoftSimplex.SymbolMap

/-!
# Look-ups in column maps

What each operation does to the value that is held for a column. Columns are compared by number.
-/

namespace SoftSimplex.SymbolMap
set_option autoImplicit false

variable {β γ : Type}

theorem get?_empty (s : Symbol) : (∅ : SymbolMap β).get? s = none := rfl

def lookup (entries : List (Symbol × β)) (n : Nat) : Option β :=
  (entries.find? fun e => e.1.id == n).map Prod.snd

theorem get?_eq_lookup (m : SymbolMap β) (s : Symbol) : m.get? s = lookup m.entries s.id := rfl

theorem lookup_nil (n : Nat) : lookup ([] : List (Symbol × β)) n = none := rfl

theorem lookup_cons (e : Symbol × β) (rest : List (Symbol × β)) (n : Nat) :
    lookup (e :: rest) n = if e.1.id = n then some e.2 else lookup rest n := by
  unfold lookup
  by_cases h : e.1.id = n
  · simp [h]
  · rw [List.find?_cons_of_neg (by simpa using h), if_neg h]

theorem lookup_eq_none {entries : List (Symbol × β)} {n : Nat}
    (h : ∀ e ∈ entries, e.1.id ≠ n) : lookup entries n = none := by
  unfold lookup
  rw [Option.map_eq_none_iff, List.find?_eq_none]
  simpa using h

/-- One optional entry before a list of other columns decides the look-up of its own column. -/
theorem lookup_option_append (t : Symbol) (v : Option β) (rest : List (Symbol × β)) (n : Nat)
    (hRest : t.id = n → lookup rest n = none) :
    lookup (v.toList.map (t, ·) ++ rest) n = if t.id = n then v else lookup rest n := by
  cases v with
  | none =>
    show lookup rest n = _
    split
    · exact hRest ‹_›
    · rfl
  | some v => exact lookup_cons (t, v) rest n

theorem lookup_alterEntries (s : Symbol) (f : Option β → Option β)
    {entries : List (Symbol × β)} (hOrdered : InColumnOrder entries) (n : Nat) :
    lookup (alterEntries s f entries) n =
      if s.id = n then f (lookup entries n) else lookup entries n := by
  induction entries with
  | nil =>
    have h := lookup_option_append s (f none) [] n fun _ => rfl
    rw [List.append_nil] at h
    exact h
  | cons d rest ih =>
    obtain ⟨t, w⟩ := d
    obtain ⟨hAbove, hRest⟩ := List.pairwise_cons.mp hOrdered
    rw [alterEntries]
    split
    · rename_i hBelow
      have hNone : s.id = n → lookup ((t, w) :: rest) n = none := fun hn =>
        lookup_eq_none fun e he => by
          rcases List.mem_cons.mp he with rfl | he
          · show t.id ≠ n
            omega
          · have : t.id < e.1.id := hAbove e he
            omega
      rw [lookup_option_append s _ _ n hNone]
      split
      · rw [hNone ‹_›]
      · rfl
    · split
      · rename_i hSame
        have hNone : t.id = n → lookup rest n = none := fun hn =>
          lookup_eq_none fun e he => by
            have : t.id < e.1.id := hAbove e he
            omega
        rw [lookup_option_append t _ _ n hNone, lookup_cons]
        simp only [hSame]
        split <;> rfl
      · rename_i hSame
        rw [lookup_cons, lookup_cons, ih hRest]
        by_cases hn : t.id = n
        · have hOther : s.id ≠ n := by omega
          simp only [hn, if_true, if_neg hOther]
        · simp only [hn, if_false]

theorem get?_alter (m : SymbolMap β) (s t : Symbol) (f : Option β → Option β) :
    (m.alter s f).get? t = if s.id = t.id then f (m.get? t) else m.get? t :=
  lookup_alterEntries s f m.ordered t.id

theorem get?_insert (m : SymbolMap β) (s t : Symbol) (v : β) :
    (m.insert s v).get? t = if s.id = t.id then some v else m.get? t :=
  get?_alter m s t _

theorem get?_erase (m : SymbolMap β) (s t : Symbol) :
    (m.erase s).get? t = if s.id = t.id then none else m.get? t :=
  get?_alter m s t _

end SoftSimplex.SymbolMap
