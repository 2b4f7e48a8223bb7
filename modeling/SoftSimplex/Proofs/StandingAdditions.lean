import SoftSimplex.Proofs.RefusedOperations
import SoftSimplex.Proofs.RegistryEntries

/-!
# Additions that stand

The journal of a run lists what has succeeded, one operation after the other; of a list of constraints
it has those that came in before one failed. An addition stands as long as no later entry of the journal
takes it back. A constraint is taken back by its number, an edit variable also by its name, and a reset
takes everything back. What was last suggested to an edit variable is read off the journal as well.
-/

namespace SoftSimplex
set_option autoImplicit false

section Journal

variable {α : Type} [Scalar α]

namespace Operation

/-- The edit variable that an operation registers, with the constraint that holds it. -/
def registration? : Operation α → Option (Variable × Constraint α)
  | .addEditVariable v w id => some (v, .make id (.ofVariable v) .equal w)
  | _ => none

/-- The constraint that an operation adds. -/
def addition? : Operation α → Option (Constraint α)
  | .addConstraint c => some c
  | .addEditVariable v w id => some (.make id (.ofVariable v) .equal w)
  | _ => none

/-- Whether a later operation takes back what the first one has added. -/
def endedBy (op : Operation α) : Operation α → Bool
  | .removeConstraint id => op.addition?.any fun c => c.id == id
  | .removeEditVariable v => op.registration?.any fun r => r.1 == v
  | .reset => true
  | _ => false

/-- The entries of a journal that no later one takes back. -/
def standing : List (Operation α) → List (Operation α)
  | [] => []
  | op :: later => if later.any op.endedBy then standing later else op :: standing later

/-- The constraints that stand, in the order of their additions. -/
def additions (done : List (Operation α)) : List (Constraint α) :=
  (standing done).filterMap addition?

/-- The edit variables that stand, in the order of their registrations. -/
def registrations (done : List (Operation α)) : List (Variable × Constraint α) :=
  (standing done).filterMap registration?

/-- What is last suggested to a variable once an operation has succeeded, if it was `x` before. -/
def suggestedBy (v : Variable) (x : α) : Operation α → α
  | .addEditVariable u _ _ => if u = v then 0 else x
  | .suggestValue u y => if u = v then y else x
  | _ => x

/-- The last suggestion to a variable since it became an edit variable, zero before any. -/
def suggestionTo (done : List (Operation α)) (v : Variable) : α :=
  done.foldl (suggestedBy v) 0

/-- The last suggestion to the edit variable that stands with a constraint, zero for a constraint that
stands with none. -/
def lastSuggestion (done : List (Operation α)) (id : Nat) : α :=
  match (registrations done).find? fun r => r.2.id == id with
  | none => 0
  | some r => suggestionTo done r.1

variable {op : Operation α} {c : Constraint α} {v : Variable} {done : List (Operation α)}

theorem suggestionTo_concat (done : List (Operation α)) (op : Operation α) (v : Variable) :
    suggestionTo (done ++ [op]) v = suggestedBy v (suggestionTo done v) op :=
  List.foldl_append

theorem addition?_of_registration? (h : op.registration? = some (v, c)) : op.addition? = some c := by
  cases op with
  | addEditVariable => exact congrArg (Option.map Prod.snd) h
  | _ => cases h

/-- The newest entry stands; of the others those that it does not take back. -/
theorem standing_concat (done : List (Operation α)) (op : Operation α) :
    standing (done ++ [op]) = (standing done).filter (fun first => !first.endedBy op) ++ [op] := by
  induction done with
  | nil => rfl
  | cons first rest ih =>
    rw [List.cons_append, standing, standing, ih, List.any_append, List.any_cons, List.any_nil,
      Bool.or_false]
    cases hRest : rest.any first.endedBy <;> cases hOp : first.endedBy op <;> simp [hOp]

theorem mem_of_mem_standing (h : op ∈ standing done) : op ∈ done := by
  induction done with
  | nil => cases h
  | cons first rest ih =>
    rw [standing] at h
    split at h
    · exact List.mem_cons_of_mem _ (ih h)
    · rcases List.mem_cons.mp h with rfl | h
      · exact List.mem_cons_self
      · exact List.mem_cons_of_mem _ (ih h)

theorem standing_concat_reset (done : List (Operation α)) : standing (done ++ [.reset]) = [.reset] := by
  rw [standing_concat, List.filter_eq_nil_iff.mpr fun first _ => by simp [endedBy]]
  rfl

section Concat

/-- An operation that takes nothing back. -/
def EndsNothing (op : Operation α) : Prop := ∀ first : Operation α, first.endedBy op = false

theorem EndsNothing.filter_standing (h : op.EndsNothing) (done : List (Operation α)) :
    (standing done).filter (fun first => !first.endedBy op) = standing done :=
  List.filter_eq_self.mpr fun first _ => by rw [h first]; rfl

theorem additions_concat (h : op.EndsNothing) (done : List (Operation α)) :
    additions (done ++ [op]) = additions done ++ op.addition?.toList := by
  rw [additions, standing_concat, h.filter_standing, List.filterMap_append]
  cases op <;> rfl

theorem registrations_concat (h : op.EndsNothing) (done : List (Operation α)) :
    registrations (done ++ [op]) = registrations done ++ op.registration?.toList := by
  rw [registrations, standing_concat, h.filter_standing, List.filterMap_append]
  cases op <;> rfl

/-- Entries are kept or dropped by what they add. -/
theorem filterMap_filter_of_forall {β γ : Type} {f : β → Option γ} {p : β → Bool} {q : γ → Bool}
    {l : List β} (h : ∀ x ∈ l, ∀ y, f x = some y → p x = q y) :
    (l.filter p).filterMap f = (l.filterMap f).filter q := by
  rw [List.filterMap_filter, List.filter_filterMap]
  refine List.filterMap_congr fun x hx => ?_
  cases hf : f x with
  | none => simp
  | some y => cases hq : q y <;> simp [h x hx y hf, hq, Option.filter]

theorem additions_concat_removal (done : List (Operation α)) (id : Nat) :
    additions (done ++ [.removeConstraint id]) = (additions done).filter fun c => !(c.id == id) := by
  have hKept : ∀ first ∈ standing done, ∀ c, first.addition? = some c →
      (!first.endedBy (.removeConstraint id)) = !(c.id == id) := by
    intro first _ c hc
    rw [endedBy, hc, Option.any_some]
  rw [additions, standing_concat, List.filterMap_append, filterMap_filter_of_forall hKept]
  exact List.append_nil _

theorem registrations_concat_removal (done : List (Operation α)) (id : Nat) :
    registrations (done ++ [.removeConstraint id]) =
      (registrations done).filter fun r => !(r.2.id == id) := by
  have hKept : ∀ first ∈ standing done, ∀ r, first.registration? = some r →
      (!first.endedBy (.removeConstraint id)) = !(r.2.id == id) := by
    intro first _ r hr
    rw [endedBy, addition?_of_registration? hr, Option.any_some]
  rw [registrations, standing_concat, List.filterMap_append, filterMap_filter_of_forall hKept]
  exact List.append_nil _

theorem registrations_concat_retirement (done : List (Operation α)) (v : Variable) :
    registrations (done ++ [.removeEditVariable v]) =
      (registrations done).filter fun r => !(r.1 == v) := by
  have hKept : ∀ first ∈ standing done, ∀ r, first.registration? = some r →
      (!first.endedBy (.removeEditVariable v)) = !(r.1 == v) := by
    intro first _ r hr
    rw [endedBy, hr, Option.any_some]
  rw [registrations, standing_concat, List.filterMap_append, filterMap_filter_of_forall hKept]
  exact List.append_nil _

/-- No two standing additions have constraints of one number. -/
theorem eq_of_addition?_id_eq (hDistinct : ((additions done).map Constraint.id).Nodup)
    {first later : Operation α} {c d : Constraint α} (hFirst : first ∈ standing done)
    (hLater : later ∈ standing done) (hc : first.addition? = some c) (hd : later.addition? = some d)
    (hId : c.id = d.id) : first = later := by
  rw [additions, List.Nodup, List.pairwise_map, List.pairwise_filterMap] at hDistinct
  obtain ⟨i, hi, rfl⟩ := List.getElem_of_mem hFirst
  obtain ⟨j, hj, rfl⟩ := List.getElem_of_mem hLater
  rw [List.pairwise_iff_getElem] at hDistinct
  rcases lt_trichotomy i j with hBefore | rfl | hBefore
  · exact absurd hId (hDistinct i j hi hj hBefore c hc d hd)
  · rfl
  · exact absurd hId.symm (hDistinct j i hj hi hBefore d hd c hc)

/-- The constraint that goes with an edit variable is known by its number, as long as no two standing
constraints have one number. -/
theorem additions_concat_retirement (hDistinct : ((additions done).map Constraint.id).Nodup)
    (hUnique : ∀ d, (v, d) ∈ registrations done → d = c) (hMem : (v, c) ∈ registrations done) :
    additions (done ++ [.removeEditVariable v]) =
      (additions done).filter fun d => !(d.id == c.id) := by
  obtain ⟨holder, hHolder, hHeld⟩ := List.mem_filterMap.mp hMem
  have hKept : ∀ first ∈ standing done, ∀ d, first.addition? = some d →
      (!first.endedBy (.removeEditVariable v)) = !(d.id == c.id) := by
    intro first hFirst d hd
    congr 1
    rw [Bool.eq_iff_iff, beq_iff_eq, endedBy, Option.any_eq_true]
    constructor
    · rintro ⟨⟨w, e⟩, hRegistered, hVariable⟩
      obtain rfl : w = v := by simpa using hVariable
      obtain rfl : e = c := hUnique e (List.mem_filterMap.mpr ⟨first, hFirst, hRegistered⟩)
      rw [Option.some.inj (hd.symm.trans (addition?_of_registration? hRegistered))]
    · intro hId
      obtain rfl := eq_of_addition?_id_eq hDistinct hFirst hHolder hd
        (addition?_of_registration? hHeld) hId
      exact ⟨(v, c), hHeld, beq_self_eq_true v⟩
  rw [additions, standing_concat, List.filterMap_append, filterMap_filter_of_forall hKept]
  exact List.append_nil _

end Concat

end Operation

namespace Solver

/-- The constraints of a list that come in before one fails. -/
def takenIn (s : Solver α) : List (Constraint α) → List (Constraint α)
  | [] => []
  | c :: rest =>
    match s.addConstraint c with
    | ⟨.ok _, s⟩ => c :: s.takenIn rest
    | _ => []

/-- What succeeds of an operation. -/
def successes (s : Solver α) (op : Operation α) : List (Operation α) :=
  match op with
  | .addConstraints cs => (s.takenIn cs).map .addConstraint
  | op =>
    match (s.perform op).1.result with
    | .ok _ => [op]
    | .error _ => []

/-- All that succeeds in a run. -/
def journal (s : Solver α) : List (Operation α) → List (Operation α)
  | [] => []
  | op :: rest => s.successes op ++ (s.perform op).2.journal rest

end Solver

end Journal

end SoftSimplex
