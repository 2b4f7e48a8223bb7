import SoftSimplex.Proofs.ColumnEntries
import SoftSimplex.Proofs.RegistryEntries
import SoftSimplex.Proofs.VariableIndex
import SoftSimplex.Solver.Operation

/-!
# Renamings

A renaming gives variables other names and constraints other numbers, and keeps different ones apart.
Expressions, constraints, registries, the index of the variables and the change log are renamed entry by
entry, in their order, and every operation on them commutes with that.
-/

namespace SoftSimplex
set_option autoImplicit false

structure Renaming where
  var : Variable → Variable
  id : Nat → Nat
  var_injective : Function.Injective var
  id_injective : Function.Injective id

namespace Registry

variable {κ ι β γ : Type} {f : κ → ι} (hf : Function.Injective f) (g : β → γ) (r : Registry κ β)

/-- Other keys and other values in the old order. -/
def rename : Registry ι γ where
  entries := r.entries.map (Prod.map f g)
  distinct := by
    rw [List.map_map, show Prod.fst ∘ Prod.map f g = f ∘ Prod.fst from rfl, ← List.map_map]
    exact r.distinct.map hf

theorem keys_rename : (r.rename hf g).keys = r.keys.map f := by
  rw [keys, keys, rename, List.map_map, List.map_map]
  rfl

theorem values_rename : (r.rename hf g).values = r.values.map g := by
  rw [values, values, rename, List.map_map, List.map_map]
  rfl

theorem filter_rename {p : κ → β → Bool} {q : ι → γ → Bool} (h : ∀ k v, q (f k) (g v) = p k v) :
    (r.rename hf g).filter q = (r.filter p).rename hf g := by
  refine eq_of_entries_eq (List.filter_map.trans ?_)
  congr 1
  exact List.filter_congr fun e _ => h e.1 e.2

variable [DecidableEq κ] [DecidableEq ι]

theorem get?_rename (k : κ) : (r.rename hf g).get? (f k) = (r.get? k).map g := by
  have hSame : ((fun e : ι × γ => e.1 == f k) ∘ Prod.map f g) = fun e : κ × β => e.1 == k := by
    funext e
    exact hf.beq_eq
  rw [get?, get?, rename, List.find?_map, hSame, Option.map_map, Option.map_map]
  rfl

theorem contains_rename (k : κ) : (r.rename hf g).contains (f k) = r.contains k := by
  rw [contains, contains, get?_rename, Option.isSome_map]

theorem insert_rename (k : κ) (v : β) :
    (r.rename hf g).insert (f k) (g v) = (r.insert k v).rename hf g := by
  refine eq_of_entries_eq ?_
  show insertEntries (f k) (g v) (r.entries.map (Prod.map f g)) =
    (insertEntries k v r.entries).map (Prod.map f g)
  generalize r.entries = entries
  induction entries with
  | nil => rfl
  | cons e rest ih =>
    have hRenamed : (Prod.map f g e).1 = f k ↔ e.1 = k := hf.eq_iff
    rw [List.map_cons, insertEntries, insertEntries]
    by_cases hKey : e.1 = k
    · rw [if_pos (hRenamed.mpr hKey), if_pos hKey]
      rfl
    · rw [if_neg (mt hRenamed.mp hKey), if_neg hKey, ih]
      rfl

theorem erase_rename (k : κ) : (r.rename hf g).erase (f k) = (r.erase k).rename hf g :=
  r.filter_rename hf g fun j _ => by rw [hf.beq_eq]

end Registry

namespace SymbolMap

variable {β γ : Type} (g : β → γ) (m : SymbolMap β) (s : Symbol)

theorem alterEntries_map {F : Option γ → Option γ} {G : Option β → Option β}
    (h : ∀ o, F (o.map g) = (G o).map g) (entries : List (Symbol × β)) :
    alterEntries s F (entries.map fun e => (e.1, g e.2)) =
      (alterEntries s G entries).map fun e => (e.1, g e.2) := by
  have hNew : F none = (G none).map g := h none
  induction entries with
  | nil =>
    rw [List.map_nil, alterEntries, alterEntries, hNew]
    cases G none <;> rfl
  | cons e rest ih =>
    have hOld : F (some (g e.2)) = (G (some e.2)).map g := h (some e.2)
    rw [List.map_cons, alterEntries, alterEntries, hNew, hOld, ih]
    split
    · cases G none <;> rfl
    · split
      · cases G (some e.2) <;> simp
      · rfl

theorem mapValues_alter {F : Option γ → Option γ} {G : Option β → Option β}
    (h : ∀ o, F (o.map g) = (G o).map g) :
    (m.mapValues fun _ => g).alter s F = (m.alter s G).mapValues fun _ => g := by
  have hEntries := alterEntries_map g s h m.entries
  rw [alter, alter, mapValues, mapValues]
  congr 1

end SymbolMap

section Expressions

variable {α : Type} [Scalar α]

def Term.rename (f : Variable → Variable) (t : Term α) : Term α := ⟨f t.var, t.coefficient⟩

def Expression.rename (f : Variable → Variable) (e : Expression α) : Expression α :=
  ⟨e.terms.map (Term.rename f), e.constant⟩

/-- Terms that the new names bring together are merged. -/
def Constraint.rename (f : Variable → Variable) (g : Nat → Nat) (c : Constraint α) : Constraint α where
  id := g c.id
  expression := (c.expression.rename f).reduced
  relation := c.relation
  strength := c.strength
  normal := by
    obtain ⟨_, w, _, hStrength⟩ := c.normal
    exact ⟨_, w, rfl, hStrength⟩

namespace Expression

variable {f : Variable → Variable} (hf : Function.Injective f) {e : Expression α} {t : Term α}
  {terms : List (Term α)}

theorem mergeTerm_of_new (h : t.var ∉ terms.map Term.var) : mergeTerm t terms = terms ++ [t] := by
  induction terms with
  | nil => rfl
  | cons u rest ih =>
    rw [List.map_cons, List.mem_cons, not_or] at h
    rw [mergeTerm, if_neg (Ne.symm h.1), ih h.2, List.cons_append]

/-- Nothing is merged where no variable occurs twice. -/
theorem reduced_of_nodup (h : (e.terms.map Term.var).Nodup) : e.reduced = e := by
  have hMerge : ∀ (terms merged : List (Term α)), ((merged ++ terms).map Term.var).Nodup →
      terms.foldl (fun merged t => mergeTerm t merged) merged = merged ++ terms := by
    intro terms
    induction terms with
    | nil => simp
    | cons t rest ih =>
      intro merged hNodup
      have hNew : t.var ∉ merged.map Term.var := by
        rw [List.map_append, List.map_cons] at hNodup
        exact fun hMem => (List.nodup_append.mp hNodup).2.2 _ hMem _ List.mem_cons_self rfl
      rw [List.foldl_cons, mergeTerm_of_new hNew, ih, List.append_assoc, List.singleton_append]
      rwa [List.append_assoc, List.singleton_append]
  rw [reduced, hMerge e.terms [] h, List.nil_append]

include hf

theorem mergeTerm_rename (t : Term α) (terms : List (Term α)) :
    mergeTerm (t.rename f) (terms.map (Term.rename f)) = (mergeTerm t terms).map (Term.rename f) := by
  induction terms with
  | nil => rfl
  | cons u rest ih =>
    have hRenamed : (u.rename f).var = (t.rename f).var ↔ u.var = t.var := hf.eq_iff
    rw [List.map_cons, mergeTerm, mergeTerm]
    by_cases hVar : u.var = t.var
    · rw [if_pos (hRenamed.mpr hVar), if_pos hVar]
      rfl
    · rw [if_neg (mt hRenamed.mp hVar), if_neg hVar, ih]
      rfl

theorem reduced_rename (e : Expression α) : (e.rename f).reduced = e.reduced.rename f := by
  have hMerge : ∀ terms merged : List (Term α),
      (terms.map (Term.rename f)).foldl (fun merged t => mergeTerm t merged)
        (merged.map (Term.rename f)) =
      (terms.foldl (fun merged t => mergeTerm t merged) merged).map (Term.rename f) := by
    intro terms
    induction terms with
    | nil => exact fun merged => rfl
    | cons t rest ih =>
      intro merged
      rw [List.map_cons, List.foldl_cons, List.foldl_cons, mergeTerm_rename hf, ih]
  exact congrArg (Expression.mk · e.constant) (hMerge e.terms [])

end Expression

end Expressions

section Books

variable (ρ : Renaming) {v : Variable} {last : Nat}

namespace VariableTable

def rename (table : VariableTable) : VariableTable where
  records := table.records.rename ρ.var_injective id
  owners := table.owners.mapValues fun _ => ρ.var

variable (table : VariableTable)

theorem isTracked_rename : (table.rename ρ).isTracked (ρ.var v) = table.isTracked v :=
  Registry.contains_rename ρ.var_injective id table.records v

theorem get?_rename : (table.rename ρ).records.get? (ρ.var v) = table.records.get? v := by
  rw [show (table.rename ρ).records = table.records.rename ρ.var_injective id from rfl,
    Registry.get?_rename, Option.map_id, id]

theorem insert_rename (r : TrackedVariable) : (table.rename ρ).records.insert (ρ.var v) r =
    (table.records.insert v r).rename ρ.var_injective id :=
  Registry.insert_rename ρ.var_injective id table.records v r

theorem acquire_rename : (table.rename ρ).acquire (ρ.var v) last =
    ((table.acquire v last).1, (table.acquire v last).2.1.rename ρ, (table.acquire v last).2.2) := by
  have hOwners : ∀ s, (table.rename ρ).owners.insert s (ρ.var v) =
      (table.owners.insert s v).mapValues fun _ => ρ.var :=
    fun s => SymbolMap.mapValues_alter ρ.var table.owners s fun _ => rfl
  rw [acquire, acquire, get?_rename]
  cases table.records.get? v with
  | some r =>
    dsimp only
    rw [insert_rename]
    rfl
  | none =>
    dsimp only
    rw [insert_rename, hOwners]
    rfl

theorem release_rename : (table.rename ρ).release (ρ.var v) =
    ((table.release v).1, (table.release v).2.rename ρ) := by
  have hRecords : (table.rename ρ).records.erase (ρ.var v) =
      (table.records.erase v).rename ρ.var_injective id :=
    Registry.erase_rename ρ.var_injective id table.records v
  have hOwners : ∀ s, (table.rename ρ).owners.erase s =
      (table.owners.erase s).mapValues fun _ => ρ.var :=
    fun s => SymbolMap.mapValues_alter ρ.var table.owners s fun _ => rfl
  rw [release, release, get?_rename]
  cases table.records.get? v with
  | none => rfl
  | some r =>
    dsimp only
    rw [insert_rename, hRecords, hOwners]
    split <;> rfl

end VariableTable

namespace ChangeLog

def rename (log : ChangeLog) : ChangeLog :=
  ⟨log.generation, log.recording.map ρ.var, log.closed.map ρ.var⟩

variable (log : ChangeLog)

theorem mark_rename (v : Variable) : (log.rename ρ).mark (ρ.var v) = (log.mark v).rename ρ := by
  have hMem : ρ.var v ∈ (log.rename ρ).recording ↔ v ∈ log.recording :=
    List.mem_map_of_injective ρ.var_injective
  rw [mark, mark]
  by_cases hKnown : v ∈ log.recording
  · rw [if_pos (hMem.mpr hKnown), if_pos hKnown]
  · rw [if_neg (mt hMem.mp hKnown), if_neg hKnown, rename, rename, List.map_append]
    rfl

theorem markAll_rename (vs : List Variable) :
    (log.rename ρ).markAll (vs.map ρ.var) = (log.markAll vs).rename ρ := by
  rw [markAll, markAll]
  induction vs generalizing log with
  | nil => rfl
  | cons v rest ih => rw [List.map_cons, List.foldl_cons, List.foldl_cons, mark_rename, ih]

end ChangeLog

end Books

namespace Constraint

variable {α : Type} [Scalar α] (ρ : Renaming)

theorem expression_rename (c : Constraint α) :
    (c.rename ρ.var ρ.id).expression = c.expression.rename ρ.var := by
  obtain ⟨e, _, hReduced, _⟩ := c.normal
  have hNodup : (c.expression.terms.map Term.var).Nodup := hReduced ▸ nodup_vars_reduced e
  exact (Expression.reduced_rename ρ.var_injective c.expression).trans
    (congrArg (Expression.rename ρ.var) (Expression.reduced_of_nodup hNodup))

theorem make_rename (id : Nat) (e : Expression α) (relation : Relation) (w : Strength α) :
    (make id e relation w).rename ρ.var ρ.id = make (ρ.id id) (e.rename ρ.var) relation w := by
  rw [rename, make, make]
  congr 1
  rw [Expression.reduced_rename ρ.var_injective, Expression.reduced_rename ρ.var_injective,
    Expression.reduced_of_nodup (nodup_vars_reduced e)]

end Constraint

end SoftSimplex
