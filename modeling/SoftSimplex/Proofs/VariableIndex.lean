import SoftSimplex.Constraint
import SoftSimplex.Proofs.ColumnEntries
import SoftSimplex.Proofs.VariableReferences

/-!
# The two indexes of the tracked variables

The index by symbol lists exactly the tracked variables under their symbols, and no count of
references is zero. Giving back the references that were just taken restores both indexes entry for
entry, as long as no variable occurs twice among them.
-/

namespace SoftSimplex
set_option autoImplicit false

theorem Numbered.mono {issued : Set Symbol} {last next : Nat} (h : Numbered issued last)
    (hLast : last ≤ next) : Numbered issued next :=
  ⟨h.distinct, fun s hs => (h.bound s hs).trans hLast, h.valid⟩

namespace VariableTable

structure Indexed (issued : Set Symbol) (table : VariableTable) : Prop extends
    Named issued table where
  held : ∀ v r, table.records.get? v = some r → 0 < r.references
  owned : ∀ e, e ∈ table.owners.entries ↔ table.symbol? e.2 = some e.1

variable {table : VariableTable} {issued : Set Symbol} {v w : Variable} {s : Symbol} {last : Nat}
  {r : TrackedVariable} {vs : List Variable}

theorem symbol?_of_get? (h : table.records.get? v = some r) : table.symbol? v = some r.symbol := by
  rw [symbol?, h, Option.map_some]

theorem isTracked_iff : table.isTracked v = true ↔ ∃ s, table.symbol? v = some s := by
  rw [isTracked, Registry.contains, symbol?]
  cases table.records.get? v <;> simp

theorem Indexed.owner (h : table.Indexed issued) (hs : table.symbol? v = some s) :
    table.owners.get? s = some v :=
  SymbolMap.get?_of_mem (e := (s, v)) ((h.owned (s, v)).mpr hs)

theorem Indexed.mono {more : Set Symbol} (h : table.Indexed issued) (hMore : issued ⊆ more) :
    table.Indexed more :=
  ⟨h.toNamed.mono hMore, h.held, h.owned⟩

/-- The next number belongs to no symbol in the index. -/
theorem Indexed.next_new (h : table.Indexed issued) (hNumbered : Numbered issued last) :
    ∀ c ∈ table.owners.keys, c.id ≠ last + 1 := by
  intro c hc
  obtain ⟨e, he, rfl⟩ := List.mem_map.mp hc
  have hBound := hNumbered.bound e.1 (h.external e.2 e.1 ((h.owned e).mp he)).1
  omega

section Steps

theorem records_acquire (table : VariableTable) (v : Variable) (last : Nat) :
    ∃ q : TrackedVariable, 0 < q.references ∧
      (table.acquire v last).2.1.records = table.records.insert v q := by
  rw [acquire]
  cases table.records.get? v with
  | none => exact ⟨_, Nat.one_pos, rfl⟩
  | some r => exact ⟨_, Nat.succ_pos _, rfl⟩

/-- A symbol that was not there before has a later number. -/
theorem fresh_acquire (h : (table.acquire w last).2.1.symbol? v = some s) :
    table.symbol? v = some s ∨ last < s.id := by
  rw [symbol?_acquire] at h
  split at h
  · rename_i hSame
    obtain rfl := Option.some.inj h
    rcases table.acquire_cases w last with ⟨hOld, _⟩ | ⟨_, hNew, _⟩
    · exact .inl (hSame ▸ hOld)
    · rw [hNew]
      exact .inr (Nat.lt_succ_self last)
  · exact .inl h

theorem indexed_acquire (h : table.Indexed issued) (hNumbered : Numbered issued last) :
    (table.acquire v last).2.1.Indexed (insert (table.acquire v last).1 issued) := by
  refine ⟨named_acquire hNumbered h.toNamed, fun w q hq => ?_, fun e => ?_⟩
  · obtain ⟨r, hHeld, hRecords⟩ := table.records_acquire v last
    rw [hRecords, Registry.get?_insert] at hq
    split at hq
    · obtain rfl := Option.some.inj hq
      exact hHeld
    · exact h.held w q hq
  · rw [symbol?_acquire]
    rcases table.acquire_cases v last with ⟨hSymbol, _⟩ | ⟨hNone, hSymbol, _⟩
    · have hOwners : (table.acquire v last).2.1.owners = table.owners := by
        obtain ⟨r, hGet, _⟩ := Option.map_eq_some_iff.mp hSymbol
        rw [acquire, hGet]
      rw [hOwners, h.owned]
      split
      · rename_i hSame
        rw [← hSame, hSymbol]
      · exact Iff.rfl
    · have hOwners : (table.acquire v last).2.1.owners =
          table.owners.insert ⟨.external, last + 1⟩ v := by
        rw [acquire, Option.map_eq_none_iff.mp hNone]
      rw [hOwners, SymbolMap.mem_insert_iff (h.next_new hNumbered), h.owned, hSymbol]
      split
      · rename_i hSame
        rw [← hSame, hNone]
        constructor
        · rintro (rfl | hNever)
          · rfl
          · cases hNever
        · intro hs
          exact .inl (Prod.ext (Option.some.inj hs).symm hSame.symm)
      · rename_i hne
        refine or_iff_right fun hPair => hne ?_
        rw [hPair]

theorem indexed_release (h : table.Indexed issued) (hNumbered : Numbered issued last) :
    (table.release v).2.Indexed issued := by
  refine ⟨h.toNamed.of_extends extends_release, fun w q hq => ?_, fun e => ?_⟩
  · rw [release] at hq
    split at hq
    · exact h.held w q hq
    · dsimp only at hq
      split at hq
      · rename_i hLeft
        rw [Registry.get?_insert] at hq
        split at hq
        · cases hq
          exact hLeft
        · exact h.held w q hq
      · rw [Registry.get?_erase] at hq
        split at hq
        · cases hq
        · exact h.held w q hq
  · rw [release]
    split
    · exact h.owned e
    · rename_i r hGet
      dsimp only
      split
      · rw [h.owned, symbol?, symbol?, Registry.get?_insert]
        split
        · rename_i hSame
          rw [← hSame, hGet]
          exact Iff.rfl
        · exact Iff.rfl
      · rw [SymbolMap.mem_erase_iff, h.owned, symbol?, symbol?, Registry.get?_erase]
        split
        · rename_i hSame
          rw [← hSame, hGet]
          constructor
          · rintro ⟨hs, hId⟩
            exact absurd (congrArg Symbol.id (Option.some.inj hs)).symm hId
          · rintro ⟨⟩
        · rename_i hne
          refine and_iff_left_of_imp fun hs hId => hne ?_
          have hOwn := symbol?_of_get? hGet
          have hSame := hNumbered.distinct (h.external _ _ hs).1 (h.external _ _ hOwn).1 hId
          exact h.distinct v e.2 e.1 (hSame ▸ hOwn) hs

/-- The only variable that a release may leave untracked is reported. -/
theorem isTracked_release (h : table.isTracked v = true) :
    (table.release w).2.isTracked v = true ∨ ((table.release w).1 = true ∧ v = w) := by
  rw [isTracked, Registry.contains] at h
  rw [release]
  split
  · exact .inl h
  · rename_i r hGet
    dsimp only
    split
    · left
      rw [isTracked, Registry.contains, Registry.get?_insert]
      split
      · rfl
      · exact h
    · by_cases hSame : w = v
      · exact .inr ⟨rfl, hSame.symm⟩
      · left
        rw [isTracked, Registry.contains, Registry.get?_erase, if_neg hSame]
        exact h

/-- Taking a reference and giving it back leaves the table as it was. -/
theorem release_acquire (h : table.Indexed issued) (hNumbered : Numbered issued last) :
    ((table.acquire v last).2.1.release v).2 = table := by
  rw [acquire]
  cases hGet : table.records.get? v with
  | none =>
    simp only [release, Registry.get?_insert, if_true, Nat.sub_self, Nat.lt_irrefl, if_false]
    rw [Registry.erase_insert hGet, SymbolMap.erase_insert (h.next_new hNumbered)]
  | some r =>
    have hHeld := h.held v r hGet
    simp only [release, Registry.get?_insert, if_true, Nat.add_sub_cancel, hHeld]
    rw [Registry.insert_insert, Registry.insert_of_get? hGet]

/-- The references of two tracked or untracked variables do not mix. -/
theorem release_acquire_of_ne (h : table.Indexed issued) (hNumbered : Numbered issued last)
    (hne : v ≠ w) (hGet : table.records.get? v = some r) :
    ((table.acquire w last).2.1.release v).2 = ((table.release v).2.acquire w last).2.1 ∧
      ((table.release v).2.acquire w last).2.2 = (table.acquire w last).2.2 := by
  have hId : last + 1 ≠ r.symbol.id := by
    have hBound := hNumbered.bound _ (h.external v _ (symbol?_of_get? hGet)).1
    omega
  have hOther : (table.release v).2.records.get? w = table.records.get? w := by
    simp only [release, hGet]
    split
    · rw [Registry.get?_insert, if_neg hne]
    · rw [Registry.get?_erase, if_neg hne]
  have hStill : ∀ q, (table.records.insert w q).get? v = some r := fun q => by
    rw [Registry.get?_insert, if_neg hne.symm, hGet]
  cases hw : table.records.get? w with
  | none =>
    simp only [acquire, hw, hOther.trans hw, and_true]
    simp only [release, hStill, hGet]
    split
    · rw [Registry.insert_comm hne.symm hGet]
    · rw [Registry.erase_insert_of_ne hne.symm,
        SymbolMap.erase_insert_of_ne (h.next_new hNumbered) hId]
  | some q =>
    simp only [acquire, hw, hOther.trans hw, and_true]
    simp only [release, hStill, hGet]
    split
    · rw [Registry.insert_comm hne.symm hGet]
    · rw [Registry.erase_insert_of_ne hne.symm]

end Steps

section Lists

/-- Takes one reference to each of some variables; the answer ends with the last symbol then in
use. -/
def acquireAll (table : VariableTable) (last : Nat) : List Variable → VariableTable × Nat
  | [] => (table, last)
  | v :: rest =>
    let taken := table.acquire v last
    acquireAll taken.2.1 taken.2.2 rest

theorem le_acquireAll : last ≤ (table.acquireAll last vs).2 := by
  induction vs generalizing table last with
  | nil => exact le_rfl
  | cons w rest ih => exact le_acquire.trans ih

theorem fresh_acquireAll (h : (table.acquireAll last vs).1.symbol? v = some s) :
    table.symbol? v = some s ∨ last < s.id := by
  induction vs generalizing table last with
  | nil => exact .inl h
  | cons w rest ih =>
    rcases ih h with hFirst | hLater
    · exact fresh_acquire hFirst
    · exact .inr (le_acquire.trans_lt hLater)

theorem get?_acquire_of_ne (hne : w ≠ v) :
    (table.acquire w last).2.1.records.get? v = table.records.get? v := by
  obtain ⟨r, _, hRecords⟩ := table.records_acquire w last
  rw [hRecords, Registry.get?_insert, if_neg hne]

theorem release_acquireAll (h : table.Indexed issued) (hNumbered : Numbered issued last)
    (hNot : v ∉ vs) (hGet : table.records.get? v = some r) :
    ((table.acquireAll last vs).1.release v).2 = ((table.release v).2.acquireAll last vs).1 := by
  induction vs generalizing table last issued with
  | nil => rfl
  | cons w rest ih =>
    have hne : v ≠ w := fun hSame => hNot (hSame ▸ List.mem_cons_self)
    obtain ⟨hTable, hLast⟩ := release_acquire_of_ne h hNumbered hne hGet
    have hRest := ih (indexed_acquire h hNumbered) (numbered_acquire hNumbered h.toNamed)
      (fun hMem => hNot (List.mem_cons_of_mem _ hMem)) ((get?_acquire_of_ne hne.symm).trans hGet)
    rw [hTable] at hRest
    rw [acquireAll, acquireAll, hLast]
    exact hRest

theorem releaseAll_acquireAll (h : table.Indexed issued) (hNumbered : Numbered issued last)
    (hNodup : vs.Nodup) : (table.acquireAll last vs).1.releaseAll vs = table := by
  induction vs generalizing last with
  | nil => rfl
  | cons v rest ih =>
    obtain ⟨hNot, hRest⟩ := List.nodup_cons.mp hNodup
    obtain ⟨s, hs⟩ : ∃ s, (table.acquire v last).2.1.symbol? v = some s :=
      ⟨_, symbol?_acquire.trans (if_pos rfl)⟩
    obtain ⟨r, hGet, _⟩ := Option.map_eq_some_iff.mp hs
    have hFirst := release_acquireAll (indexed_acquire h hNumbered)
      (numbered_acquire hNumbered h.toNamed) hNot hGet
    rw [release_acquire h hNumbered] at hFirst
    calc (table.acquireAll last (v :: rest)).1.releaseAll (v :: rest)
        = (table.acquireAll (table.acquire v last).2.2 rest).1.releaseAll rest :=
          congrArg (releaseAll · rest) hFirst
      _ = table := ih (hNumbered.mono le_acquire) hRest

theorem indexed_releaseAll (h : table.Indexed issued) (hNumbered : Numbered issued last) :
    (table.releaseAll vs).Indexed issued := by
  induction vs generalizing table with
  | nil => exact h
  | cons v rest ih => exact ih (indexed_release h hNumbered)

end Lists

end VariableTable

section Terms

variable {α : Type} [Scalar α]

theorem vars_mergeTerm (t : Term α) (terms : List (Term α)) :
    (Expression.mergeTerm t terms).map Term.var =
      if t.var ∈ terms.map Term.var then terms.map Term.var else terms.map Term.var ++ [t.var] := by
  induction terms with
  | nil => simp [Expression.mergeTerm]
  | cons u rest ih =>
    by_cases hSame : u.var = t.var
    · simp [Expression.mergeTerm, hSame]
    · rw [Expression.mergeTerm, if_neg hSame, List.map_cons, ih]
      by_cases hIn : t.var ∈ rest.map Term.var
      · rw [if_pos hIn, if_pos (by simp [hIn]), List.map_cons]
      · have hNot : t.var ∉ (u :: rest).map Term.var := by
          rw [List.map_cons, List.mem_cons, not_or]
          exact ⟨Ne.symm hSame, hIn⟩
        rw [if_neg hIn, if_neg hNot, List.map_cons, List.cons_append]

theorem nodup_vars_mergeTerm {t : Term α} {terms : List (Term α)}
    (h : (terms.map Term.var).Nodup) : ((Expression.mergeTerm t terms).map Term.var).Nodup := by
  rw [vars_mergeTerm]
  split
  · exact h
  · rename_i hNot
    exact h.append (List.nodup_singleton _) (List.disjoint_singleton.mpr hNot)

theorem nodup_vars_reduced (e : Expression α) : (e.reduced.terms.map Term.var).Nodup := by
  have hFold : ∀ (terms merged : List (Term α)), (merged.map Term.var).Nodup →
      ((terms.foldl (fun merged t => Expression.mergeTerm t merged) merged).map Term.var).Nodup := by
    intro terms
    induction terms with
    | nil => exact fun _ h => h
    | cons t rest ih => exact fun merged h => ih _ (nodup_vars_mergeTerm h)
  exact hFold e.terms [] List.nodup_nil

/-- A constraint takes at most one reference to each variable. -/
theorem Constraint.nodup_mentions (c : Constraint α) : (mentions c.expression.terms).Nodup := by
  obtain ⟨e, _, hExpression, _⟩ := c.normal
  rw [hExpression]
  exact (nodup_vars_reduced e).sublist (List.filter_sublist.map Term.var)

end Terms

end SoftSimplex
