import Mathlib
import SoftSimplex.Evaluation
import SoftSimplex.Proofs.RegistryEntries
import SoftSimplex.VariableTable

/-!
# References to variables

The table counts, for each variable, the terms that mention it. So a variable that a live constraint
mentions keeps its symbol, and an assignment of the columns values the constraint as long as the
constraint lives. Terms with coefficient zero are no mention; their variables have no say.
-/

namespace SoftSimplex
set_option autoImplicit false

/-- Symbols that have been issued, with numbers up to `last`. -/
structure Numbered (issued : Set Symbol) (last : Nat) : Prop where
  distinct : Set.InjOn Symbol.id issued
  bound : ∀ s ∈ issued, s.id ≤ last
  valid : ∀ s ∈ issued, s.isInvalid = false

theorem Numbered.insert {issued : Set Symbol} {last next : Nat} {s : Symbol}
    (h : Numbered issued last) (hAbove : last < s.id) (hBelow : s.id ≤ next)
    (hValid : s.isInvalid = false) : Numbered (insert s issued) next where
  distinct := by
    rintro t (rfl | ht) u (rfl | hu) hId
    · rfl
    · have := h.bound u hu
      omega
    · have := h.bound t ht
      omega
    · exact h.distinct ht hu hId
  bound := by
    rintro t (rfl | ht)
    · exact hBelow
    · have := h.bound t ht
      omega
  valid := by
    rintro t (rfl | ht)
    · exact hValid
    · exact h.valid t ht

/-- The variables that terms mention, as often as they do. A negligible coefficient makes no mention. -/
def mentions {α : Type} [Scalar α] (terms : List (Term α)) : List Variable :=
  (terms.filter fun t => !Scalar.negligible t.coefficient).map Term.var

section Mentions

variable {α : Type} [Scalar α] {t : Term α} {terms more : List (Term α)}

theorem mentions_cons_of_negligible (h : Scalar.negligible t.coefficient = true) :
    mentions (t :: terms) = mentions terms := by
  simp [mentions, h]

theorem mentions_cons_of_not_negligible (h : Scalar.negligible t.coefficient = false) :
    mentions (t :: terms) = t.var :: mentions terms := by
  simp [mentions, h]

theorem mentions_append : mentions (terms ++ more) = mentions terms ++ mentions more := by
  simp [mentions]

end Mentions

theorem sum_terms_congr {terms : List (Term Rat)} {x y : Variable → Rat}
    (h : ∀ v ∈ mentions terms, x v = y v) :
    (terms.map (Term.value x)).sum = (terms.map (Term.value y)).sum := by
  refine congrArg List.sum (List.map_congr_left fun t ht => ?_)
  by_cases hZero : t.coefficient = 0
  · rw [Term.value, Term.value, hZero, zero_mul, zero_mul]
  · rw [Term.value, Term.value, h t.var]
    refine List.mem_map.mpr ⟨t, List.mem_filter.mpr ⟨ht, ?_⟩, rfl⟩
    simpa [Scalar.negligible] using hZero

theorem Expression.value_congr {e : Expression Rat} {x y : Variable → Rat}
    (h : ∀ v ∈ mentions e.terms, x v = y v) : e.value x = e.value y := by
  rw [value, value, sum_terms_congr h]

namespace VariableTable

def symbol? (table : VariableTable) (v : Variable) : Option Symbol :=
  (table.records.get? v).map TrackedVariable.symbol

/-- The values that an assignment of the columns gives to the variables; zero if not tracked. -/
def valuation (table : VariableTable) (a : Nat → Rat) (v : Variable) : Rat :=
  (table.symbol? v).elim 0 fun s => a s.id

/-- Every tracked variable keeps its symbol in the second table. -/
def Extends (table next : VariableTable) : Prop :=
  ∀ v s, table.symbol? v = some s → next.symbol? v = some s

structure Named (issued : Set Symbol) (table : VariableTable) : Prop where
  external : ∀ v s, table.symbol? v = some s → s ∈ issued ∧ s.isExternal = true
  distinct : ∀ v w s, table.symbol? v = some s → table.symbol? w = some s → v = w

/-- A table tracks the variables of a multiset and counts how often they occur. -/
structure Counts (table : VariableTable) (m : Multiset Variable) : Prop where
  tracked : ∀ v ∈ m, ∃ s, table.symbol? v = some s
  counted : ∀ v r, table.records.get? v = some r → v ∈ m ∧ r.references = m.count v

variable {table next : VariableTable} {issued : Set Symbol} {m : Multiset Variable}
  {v w : Variable} {s : Symbol} {last : Nat} {a : Nat → Rat}

theorem valuation_of_symbol? (h : table.symbol? v = some s) : table.valuation a v = a s.id := by
  rw [valuation, h, Option.elim_some]

theorem Extends.refl (table : VariableTable) : table.Extends table := fun _ _ h => h

theorem Extends.trans {further : VariableTable} (h : table.Extends next)
    (hMore : next.Extends further) : table.Extends further :=
  fun v s hs => hMore v s (h v s hs)

theorem Extends.valuation (h : table.Extends next) (hCounts : table.Counts m) (hv : v ∈ m) :
    next.valuation a v = table.valuation a v := by
  obtain ⟨s, hs⟩ := hCounts.tracked v hv
  rw [valuation_of_symbol? hs, valuation_of_symbol? (h v s hs)]

theorem Named.of_extends (h : next.Named issued) (hExtends : table.Extends next) :
    table.Named issued where
  external v s hs := h.external v s (hExtends v s hs)
  distinct v w s hv hw := h.distinct v w s (hExtends v s hv) (hExtends w s hw)

theorem Named.mono {more : Set Symbol} (h : table.Named issued) (hMore : issued ⊆ more) :
    table.Named more where
  external v s hs := ⟨hMore (h.external v s hs).1, (h.external v s hs).2⟩
  distinct := h.distinct

section Recount

variable {owners : SymbolMap Variable} {n : Multiset Variable} (h : table.Counts m)
  (hOthers : ∀ w, w ≠ v → n.count w = m.count w)
include h hOthers

/-- A record with another count accounts for more or fewer mentions of its variable. -/
theorem Counts.insert {r : TrackedVariable} (hv : v ∈ n) (hCount : r.references = n.count v) :
    Counts ⟨table.records.insert v r, owners⟩ n where
  tracked w hw := by
    rw [symbol?, Registry.get?_insert]
    split
    · exact ⟨_, rfl⟩
    · rename_i hne
      rw [← Multiset.count_pos, hOthers w (Ne.symm hne), Multiset.count_pos] at hw
      exact h.tracked w hw
  counted w q hq := by
    rw [Registry.get?_insert] at hq
    split at hq
    · rename_i hSame
      subst hSame
      obtain rfl := Option.some.inj hq
      exact ⟨hv, hCount⟩
    · rename_i hne
      rw [← Multiset.count_pos, hOthers w (Ne.symm hne), Multiset.count_pos]
      exact h.counted w q hq

theorem Counts.erase (hGone : v ∉ n) : Counts ⟨table.records.erase v, owners⟩ n where
  tracked w hw := by
    have hne : v ≠ w := fun hSame => hGone (hSame ▸ hw)
    rw [symbol?, Registry.get?_erase, if_neg hne]
    rw [← Multiset.count_pos, hOthers w hne.symm, Multiset.count_pos] at hw
    exact h.tracked w hw
  counted w q hq := by
    rw [Registry.get?_erase] at hq
    split at hq
    · cases hq
    · rename_i hne
      rw [← Multiset.count_pos, hOthers w (Ne.symm hne), Multiset.count_pos]
      exact h.counted w q hq

end Recount

section Acquire

theorem acquire_cases (table : VariableTable) (v : Variable) (last : Nat) :
    (table.symbol? v = some (table.acquire v last).1 ∧ (table.acquire v last).2.2 = last) ∨
      (table.symbol? v = none ∧ (table.acquire v last).1 = ⟨.external, last + 1⟩ ∧
        (table.acquire v last).2.2 = last + 1) := by
  rw [acquire, symbol?]
  cases table.records.get? v with
  | none => exact .inr ⟨rfl, rfl, rfl⟩
  | some r => exact .inl ⟨rfl, rfl⟩

theorem symbol?_acquire : (table.acquire v last).2.1.symbol? w =
    if v = w then some (table.acquire v last).1 else table.symbol? w := by
  rw [acquire]
  cases hGet : table.records.get? v with
  | none =>
    simp only [symbol?, Registry.get?_insert]
    split <;> rfl
  | some r =>
    simp only [symbol?, Registry.get?_insert]
    split <;> rfl

theorem le_acquire : last ≤ (table.acquire v last).2.2 := by
  rcases table.acquire_cases v last with ⟨_, hLast⟩ | ⟨_, _, hLast⟩ <;> omega

theorem isExternal_acquire (h : table.Named issued) : (table.acquire v last).1.isExternal = true := by
  rcases table.acquire_cases v last with ⟨hs, _⟩ | ⟨_, hs, _⟩
  · exact (h.external v _ hs).2
  · rw [hs]
    rfl

theorem extends_acquire : table.Extends (table.acquire v last).2.1 := by
  intro w s hs
  rw [symbol?_acquire]
  split
  · rename_i hSame
    subst hSame
    rcases table.acquire_cases v last with ⟨hOld, _⟩ | ⟨hNone, _, _⟩
    · exact hOld.symm.trans hs
    · cases hNone.symm.trans hs
  · exact hs

theorem numbered_acquire (h : Numbered issued last) (hNamed : table.Named issued) :
    Numbered (insert (table.acquire v last).1 issued) (table.acquire v last).2.2 := by
  rcases table.acquire_cases v last with ⟨hs, hLast⟩ | ⟨_, hs, hLast⟩
  · rw [hLast, Set.insert_eq_of_mem (hNamed.external v _ hs).1]
    exact h
  · rw [hLast, hs]
    exact h.insert (Nat.lt_succ_self last) le_rfl rfl

theorem named_acquire (h : Numbered issued last) (hNamed : table.Named issued) :
    (table.acquire v last).2.1.Named (insert (table.acquire v last).1 issued) := by
  have hOwner : ∀ w, table.symbol? w = some (table.acquire v last).1 → w = v := by
    intro w hw
    rcases table.acquire_cases v last with ⟨hs, _⟩ | ⟨_, hs, _⟩
    · exact hNamed.distinct w v _ hw hs
    · have hBound := h.bound _ (hNamed.external w _ hw).1
      rw [hs] at hBound
      exact absurd hBound (Nat.not_succ_le_self last)
  constructor
  · intro w s hs
    rw [symbol?_acquire] at hs
    split at hs
    · obtain rfl := Option.some.inj hs
      exact ⟨Set.mem_insert _ _, isExternal_acquire hNamed⟩
    · exact ⟨.inr (hNamed.external w s hs).1, (hNamed.external w s hs).2⟩
  · intro w u s hw hu
    rw [symbol?_acquire] at hw hu
    split at hw <;> split at hu
    · rename_i hvw hvu
      exact hvw.symm.trans hvu
    · rename_i hvw _
      obtain rfl := Option.some.inj hw
      exact hvw.symm.trans (hOwner u hu).symm
    · rename_i _ hvu
      obtain rfl := Option.some.inj hu
      exact (hOwner w hw).trans hvu
    · exact hNamed.distinct w u s hw hu

theorem Counts.acquire (h : table.Counts m) : (table.acquire v last).2.1.Counts (v ::ₘ m) := by
  have hOthers : ∀ w, w ≠ v → (v ::ₘ m).count w = m.count w := fun w hne =>
    Multiset.count_cons_of_ne hne m
  rw [VariableTable.acquire]
  cases hGet : table.records.get? v with
  | none =>
    have hAbsent : v ∉ m := by
      intro hv
      obtain ⟨s, hs⟩ := h.tracked v hv
      rw [symbol?, hGet] at hs
      cases hs
    refine h.insert hOthers (Multiset.mem_cons_self v m) ?_
    rw [Multiset.count_cons_self, Multiset.count_eq_zero_of_notMem hAbsent]
  | some r =>
    refine h.insert hOthers (Multiset.mem_cons_self v m) ?_
    rw [Multiset.count_cons_self, (h.counted v r hGet).2]

end Acquire

section Release

theorem extends_release : (table.release v).2.Extends table := by
  intro w s hs
  rw [release] at hs
  split at hs
  · exact hs
  · rename_i r hGet
    dsimp only at hs
    split at hs
    · rw [symbol?, Registry.get?_insert] at hs
      split at hs
      · rename_i hSame
        rw [← hSame, symbol?, hGet]
        exact hs
      · exact hs
    · rw [symbol?, Registry.get?_erase] at hs
      split at hs
      · cases hs
      · exact hs

theorem Counts.release (h : table.Counts (v ::ₘ m)) : (table.release v).2.Counts m := by
  obtain ⟨s, hs⟩ := h.tracked v (Multiset.mem_cons_self v m)
  obtain ⟨r, hGet, rfl⟩ := Option.map_eq_some_iff.mp hs
  have hOthers : ∀ w, w ≠ v → m.count w = (v ::ₘ m).count w := fun w hne =>
    (Multiset.count_cons_of_ne hne m).symm
  have hReferences := (h.counted v r hGet).2
  rw [Multiset.count_cons_self] at hReferences
  rw [VariableTable.release, hGet]
  dsimp only
  split
  · exact h.insert hOthers (Multiset.count_pos.mp (by omega)) (by dsimp only; omega)
  · exact h.erase hOthers (Multiset.count_eq_zero.mp (by omega))

/-- What is left of a table when references to some variables are given back. -/
def releaseAll (table : VariableTable) (vs : List Variable) : VariableTable :=
  vs.foldl (fun table v => (table.release v).2) table

theorem extends_releaseAll {vs : List Variable} : (table.releaseAll vs).Extends table := by
  induction vs generalizing table with
  | nil => exact .refl table
  | cons v rest ih => exact ih.trans extends_release

theorem Counts.releaseAll {vs : List Variable} (h : table.Counts (m + vs)) :
    (table.releaseAll vs).Counts m := by
  induction vs generalizing table with
  | nil => simpa [VariableTable.releaseAll] using h
  | cons v rest ih =>
    rw [← Multiset.cons_coe, Multiset.add_cons] at h
    exact ih h.release

end Release

end VariableTable

end SoftSimplex
