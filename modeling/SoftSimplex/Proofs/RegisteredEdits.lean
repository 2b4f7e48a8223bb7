import SoftSimplex.Proofs.StandingAdditions
import SoftSimplex.Satisfaction

/-!
# Registered edit variables

The live constraints and the edit variables of a solver are compared with what stands in a journal, each
edit variable with the live constraint that holds it, and its value with the last suggestion. Here is
what each change of the two lists, together with its entry in the journal, does to that.
-/

namespace SoftSimplex
set_option autoImplicit false

namespace Solver

variable {α : Type} [Scalar α] {s next : Solver α} {c : Constraint α} {tag : Tag}
  {v : Variable} {w : Strength α} {id : Nat} {edit : Edit α} {op : Operation α}
  {done : List (Operation α)} {x : α}

/-- The solver has what stands in a journal. -/
structure Registered (s : Solver α) (done : List (Operation α)) : Prop where
  constraints : s.constraintList = Operation.additions done
  edits : s.edits.entries.map (fun e => (e.1, e.2.constraint)) = Operation.registrations done
  keys : ∀ e ∈ s.constraints.entries, e.2.constraint.id = e.1
  live : ∀ e ∈ s.edits.entries,
    s.constraints.get? e.2.constraint.id = some ⟨e.2.constraint, e.2.tag⟩
  optional : ∀ v w id, .addEditVariable v w id ∈ done → w.isRequired = false
  values : ∀ e ∈ s.edits.entries, e.2.value = Operation.suggestionTo done e.1

namespace Registered

theorem nodup (h : s.Registered done) : ((Operation.additions done).map Constraint.id).Nodup := by
  have hKeys : s.constraintList.map Constraint.id = s.constraints.keys := by
    rw [constraintList, Registry.values, List.map_map, List.map_map]
    exact List.map_congr_left h.keys
  rw [← h.constraints, hKeys]
  exact s.constraints.distinct

theorem mem_registrations_iff (h : s.Registered done) : (v, c) ∈ Operation.registrations done ↔
    ∃ e, (v, e) ∈ s.edits.entries ∧ e.constraint = c := by
  rw [← h.edits, List.mem_map]
  constructor
  · rintro ⟨⟨u, e⟩, he, hPair⟩
    cases hPair
    exact ⟨e, he, rfl⟩
  · rintro ⟨e, he, rfl⟩
    exact ⟨_, he, rfl⟩

theorem exists_registration (h : s.Registered done) (he : (v, edit) ∈ s.edits.entries) :
    ∃ w : Strength α, .addEditVariable v w edit.constraint.id ∈ Operation.standing done ∧
      edit.constraint = .make edit.constraint.id (.ofVariable v) .equal w := by
  obtain ⟨first, hFirst, hPair⟩ := List.mem_filterMap.mp (h.mem_registrations_iff.mpr ⟨edit, he, rfl⟩)
  cases first with
  | addEditVariable u w id =>
    obtain ⟨rfl, hConstraint⟩ := Prod.mk.inj (Option.some.inj hPair)
    rw [← hConstraint]
    exact ⟨w, hFirst, rfl⟩
  | _ => cases hPair

/-- An edit variable is known by its constraint. -/
theorem eq_of_id_eq (h : s.Registered done) {d e : Variable × Edit α} (hd : d ∈ s.edits.entries)
    (he : e ∈ s.edits.entries) (hId : d.2.constraint.id = e.2.constraint.id) : d = e := by
  have hLive := h.live d hd
  rw [hId, h.live e he] at hLive
  have hSame : e.2.constraint = d.2.constraint :=
    congrArg LiveConstraint.constraint (Option.some.inj hLive)
  obtain ⟨_, _, hd'⟩ := h.exists_registration hd
  obtain ⟨_, _, he'⟩ := h.exists_registration he
  rw [hd', he'] at hSame
  have hTerms : (Expression.ofVariable e.1 : Expression α).reduced.terms =
      (Expression.ofVariable d.1 : Expression α).reduced.terms :=
    congrArg (fun c => c.expression.terms) hSame
  have hVariable : e.1 = d.1 := congrArg Term.var (List.cons.inj hTerms).1
  exact s.edits.eq_of_mem_of_key_eq hd he hVariable.symm

/-- What the equation of a constraint is measured from is the last suggestion. -/
theorem target_eq (h : s.Registered done) (id : Nat) :
    s.target id = Operation.lastSuggestion done id := by
  have hFind : ((Operation.registrations done).find? fun r => r.2.id == id) =
      (s.edits.entries.find? fun e => e.2.constraint.id == id).map
        fun e => (e.1, e.2.constraint) := by
    rw [← h.edits, List.find?_map]
    rfl
  rw [target, Registry.values, List.find?_map, Operation.lastSuggestion, hFind]
  cases hEntry : s.edits.entries.find? fun e => e.2.constraint.id == id with
  | none => simp [hEntry]
  | some e =>
    have hValue := h.values e (List.mem_of_find?_eq_some hEntry)
    simp [hEntry, hValue]

section Steps

variable (h : s.Registered done)
include h

theorem keep (hConstraints : next.constraints = s.constraints) (hEdits : next.edits = s.edits) :
    next.Registered done where
  constraints := by rw [constraintList, hConstraints, ← h.constraints, constraintList]
  edits := hEdits ▸ h.edits
  keys := hConstraints ▸ h.keys
  live e he := by
    rw [hConstraints]
    exact h.live e (hEdits ▸ he)
  optional := h.optional
  values := hEdits ▸ h.values

theorem of_restores (hRestores : Restores s next) : next.Registered done := by
  have hSame := hRestores.same
  refine h.keep ?_ ?_ <;> rw [hSame]

/-- An operation of another kind leaves the last suggestions as they are. -/
theorem values_concat {e : Variable × Edit α} (he : e ∈ s.edits.entries)
    (hOp : ∀ y, op.suggestedBy e.1 y = y) :
    e.2.value = Operation.suggestionTo (done ++ [op]) e.1 := by
  rw [Operation.suggestionTo_concat, hOp]
  exact h.values e he

theorem optional_concat (hOp : ∀ v w id, op = .addEditVariable v w id → w.isRequired = false) :
    ∀ v w id, .addEditVariable v w id ∈ done ++ [op] → w.isRequired = false := by
  intro v w id hMem
  rcases List.mem_append.mp hMem with hMem | hMem
  · exact h.optional v w id hMem
  · exact hOp v w id (List.mem_singleton.mp hMem).symm

/-- An entry that neither adds nor takes back nor suggests. -/
theorem note (hAddition : op.addition? = none) (hEnds : op.EndsNothing)
    (hSuggested : ∀ v y, op.suggestedBy v y = y) : s.Registered (done ++ [op]) where
  constraints := by
    rw [Operation.additions_concat hEnds, hAddition, h.constraints]
    exact (List.append_nil _).symm
  edits := by
    have hRegistration : op.registration? = none := by
      by_contra hSome
      obtain ⟨r, hr⟩ := Option.ne_none_iff_exists'.mp hSome
      cases (Operation.addition?_of_registration? hr).symm.trans hAddition
    rw [Operation.registrations_concat hEnds, hRegistration, h.edits]
    exact (List.append_nil _).symm
  keys := h.keys
  live := h.live
  optional := h.optional_concat fun v w id hOp => by
    rw [hOp] at hAddition
    cases hAddition
  values e he := h.values_concat he (hSuggested e.1)

/-- A suggestion changes nothing of an entry but its value. -/
theorem suggest (hFound : s.edits.get? v = some edit) (hConstraints : next.constraints = s.constraints)
    (hEdits : next.edits = s.edits.insert v { edit with value := x }) :
    next.Registered (done ++ [.suggestValue v x]) where
  constraints := by
    rw [Operation.additions_concat fun _ => rfl, constraintList, hConstraints, ← h.constraints]
    exact (List.append_nil _).symm
  edits := by
    have hKept := Registry.map_entries_insert (w := { edit with value := x })
      (f := fun e : Variable × Edit α => (e.1, e.2.constraint)) hFound rfl
    rw [Operation.registrations_concat fun _ => rfl, ← h.edits, hEdits, hKept]
    exact (List.append_nil _).symm
  keys := hConstraints ▸ h.keys
  live e he := by
    rw [hConstraints]
    rw [hEdits] at he
    rcases Registry.mem_insert_iff.mp he with rfl | ⟨he, _⟩
    · exact h.live (v, edit) (Registry.get?_eq_some_iff.mp hFound)
    · exact h.live e he
  optional := h.optional_concat fun _ _ _ hOp => by cases hOp
  values e he := by
    rw [hEdits] at he
    rcases Registry.mem_insert_iff.mp he with rfl | ⟨he, hOther⟩
    · rw [Operation.suggestionTo_concat]
      exact (if_pos rfl).symm
    · exact h.values_concat he fun y => if_neg (Ne.symm hOther)

section Addition

variable (hNew : s.constraints.get? c.id = none)
  (hConstraints : next.constraints = s.constraints.insert c.id ⟨c, tag⟩)
include hConstraints

theorem keys_insert : ∀ e ∈ next.constraints.entries, e.2.constraint.id = e.1 := by
  intro e he
  rw [hConstraints] at he
  rcases Registry.mem_insert_iff.mp he with rfl | ⟨he, _⟩
  · rfl
  · exact h.keys e he

include hNew

theorem live_insert {e : Variable × Edit α} (he : e ∈ s.edits.entries) :
    next.constraints.get? e.2.constraint.id = some ⟨e.2.constraint, e.2.tag⟩ := by
  have hLive := h.live e he
  have hOther : c.id ≠ e.2.constraint.id := by
    intro hSame
    rw [← hSame, hNew] at hLive
    cases hLive
  rw [hConstraints, Registry.get?_insert, if_neg hOther, hLive]

theorem add (hEdits : next.edits = s.edits) : next.Registered (done ++ [.addConstraint c]) where
  constraints := by
    rw [Operation.additions_concat fun _ => rfl, constraintList_insert hNew hConstraints,
      h.constraints]
    rfl
  edits := by
    rw [Operation.registrations_concat fun _ => rfl, hEdits, h.edits]
    exact (List.append_nil _).symm
  keys := h.keys_insert hConstraints
  live e he := h.live_insert hNew hConstraints (hEdits ▸ he)
  optional := h.optional_concat fun v w id hOp => by cases hOp
  values e he := h.values_concat (hEdits ▸ he) fun _ => rfl

theorem register (hMake : c = .make id (.ofVariable v) .equal w) (hFree : s.edits.get? v = none)
    (hOptional : w.isRequired = false) (hEdits : next.edits = s.edits.insert v ⟨tag, c, 0⟩) :
    next.Registered (done ++ [.addEditVariable v w id]) where
  constraints := by
    rw [Operation.additions_concat fun _ => rfl, constraintList_insert hNew hConstraints,
      h.constraints, hMake]
    rfl
  edits := by
    rw [Operation.registrations_concat fun _ => rfl, hEdits, Registry.entries_insert hFree,
      List.map_append, h.edits, hMake]
    rfl
  keys := h.keys_insert hConstraints
  live e he := by
    rw [hEdits] at he
    rcases Registry.mem_insert_iff.mp he with rfl | ⟨he, _⟩
    · rw [hConstraints, Registry.get?_insert, if_pos rfl]
    · exact h.live_insert hNew hConstraints he
  optional := h.optional_concat fun _ _ _ hOp => by
    cases hOp
    exact hOptional
  values e he := by
    rw [hEdits] at he
    rcases Registry.mem_insert_iff.mp he with rfl | ⟨he, hOther⟩
    · rw [Operation.suggestionTo_concat]
      exact (if_pos rfl).symm
    · exact h.values_concat he fun _ => if_neg (Ne.symm hOther)

end Addition

section Removal

variable (hConstraints : next.constraints = s.constraints.erase id)
include hConstraints

theorem constraintList_erase :
    next.constraintList = (Operation.additions done).filter fun c => !(c.id == id) := by
  rw [← h.constraints, constraintList, constraintList, Registry.values, Registry.values, hConstraints,
    List.map_map, List.map_map, List.filter_map]
  congr 1
  refine List.filter_congr fun e he => ?_
  rw [Function.comp_apply, Function.comp_apply, h.keys e he]

theorem keys_erase : ∀ e ∈ next.constraints.entries, e.2.constraint.id = e.1 := by
  intro e he
  rw [hConstraints] at he
  exact h.keys e (Registry.mem_erase_iff.mp he).1

theorem live_erase {e : Variable × Edit α} (he : e ∈ s.edits.entries)
    (hOther : e.2.constraint.id ≠ id) :
    next.constraints.get? e.2.constraint.id = some ⟨e.2.constraint, e.2.tag⟩ := by
  rw [hConstraints, Registry.get?_erase, if_neg (Ne.symm hOther), h.live e he]

theorem remove (hEdits : next.edits = s.edits.filter fun _ e => !(e.constraint.id == id)) :
    next.Registered (done ++ [.removeConstraint id]) where
  constraints := by
    rw [Operation.additions_concat_removal, h.constraintList_erase hConstraints]
  edits := by
    rw [Operation.registrations_concat_removal, ← h.edits, hEdits, List.filter_map]
    rfl
  keys := h.keys_erase hConstraints
  live e he := by
    rw [hEdits] at he
    obtain ⟨he, hOther⟩ := List.mem_filter.mp he
    exact h.live_erase hConstraints he (by simpa using hOther)
  optional := h.optional_concat fun _ _ _ hOp => by cases hOp
  values e he := by
    rw [hEdits] at he
    exact h.values_concat (List.mem_filter.mp he).1 fun _ => rfl

end Removal

theorem retire (hFound : s.edits.get? v = some edit)
    (hConstraints : next.constraints = s.constraints.erase edit.constraint.id)
    (hEdits : next.edits = (s.edits.erase v).filter fun _ e => !(e.constraint.id == edit.constraint.id)) :
    next.Registered (done ++ [.removeEditVariable v]) := by
  have hMem := Registry.get?_eq_some_iff.mp hFound
  have hOther : ∀ e ∈ s.edits.entries, e.1 ≠ v → e.2.constraint.id ≠ edit.constraint.id := by
    intro e he hKey hId
    exact hKey (congrArg Prod.fst (h.eq_of_id_eq he hMem hId))
  -- The entry of the variable is the only one with its constraint.
  have hEntries : next.edits.entries = s.edits.entries.filter fun e => !(e.1 == v) := by
    rw [hEdits]
    refine List.filter_eq_self.mpr fun e he => ?_
    obtain ⟨he, hKey⟩ := Registry.mem_erase_iff.mp he
    simpa using hOther e he hKey
  have hUnique : ∀ d, (v, d) ∈ Operation.registrations done → d = edit.constraint := by
    intro d hd
    obtain ⟨e, he, rfl⟩ := h.mem_registrations_iff.mp hd
    exact congrArg (Edit.constraint ∘ Prod.snd) (s.edits.eq_of_mem_of_key_eq he hMem rfl)
  constructor
  · rw [Operation.additions_concat_retirement h.nodup hUnique (h.mem_registrations_iff.mpr
      ⟨edit, hMem, rfl⟩), h.constraintList_erase hConstraints]
  · rw [Operation.registrations_concat_retirement, ← h.edits, hEntries, List.filter_map]
    rfl
  · exact h.keys_erase hConstraints
  · intro e he
    rw [hEntries] at he
    obtain ⟨he, hKey⟩ := List.mem_filter.mp he
    exact h.live_erase hConstraints he (hOther e he (by simpa using hKey))
  · exact h.optional_concat fun _ _ _ hOp => by cases hOp
  · intro e he
    rw [hEntries] at he
    exact h.values_concat (List.mem_filter.mp he).1 fun _ => rfl

end Steps

end Registered

end Solver

end SoftSimplex
