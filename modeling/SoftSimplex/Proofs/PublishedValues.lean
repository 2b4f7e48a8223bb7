import SoftSimplex.Proofs.CoherentRuns
import SoftSimplex.Proofs.NumericEquality

/-!
# Published values

A published value that is not in the change log equals the solved value, if that is a number. Runs keep
this, whatever their operations answer, because nothing moves a solved value without a note. A fetch
publishes what is in the log and so makes all values equal.
-/

namespace SoftSimplex
set_option autoImplicit false

open Scalar

variable {α : Type} [Scalar α] [NumericEquality α]

theorem number_of_beq {a b : α} (h : (a == b) = true) : (b == b) = true :=
  PartialEquivBEq.trans (PartialEquivBEq.symm h) h

theorem Scalar.Unmoved.beq {a b : α} (h : Unmoved a b) (hNumber : (b == b) = true) :
    (a == b) = true := by
  induction h with
  | refl => exact hNumber
  | add _ hZero ih =>
    have hBefore := NumericEquality.number_of_add hZero hNumber
    exact PartialEquivBEq.trans (ih hBefore)
      (PartialEquivBEq.symm (NumericEquality.add_beq hBefore hZero))

namespace Solver

variable {s next : Solver α} {v w : Variable} {op : Operation α}

/-- What callers read is up to date except where the change log says otherwise. -/
structure Current (s : Solver α) : Prop where
  nodup : s.changes.recording.Nodup
  values : ∀ v, v ∉ s.changes.recording → (s.solvedValue v == s.solvedValue v) = true →
    (s.getValue v == s.solvedValue v) = true
  published : ∀ v ∈ s.published.keys,
    s.tracked.isTracked v = true ∨ v ∈ s.changes.recording

theorem Current.logs (h : s.Current) (hLogs : Logs s next) : next.Current where
  nodup := hLogs.nodup h.nodup
  values v hv hNumber := by
    have hMoved : (s.solvedValue v == next.solvedValue v) = true :=
      (hLogs.values v hv).beq hNumber
    have hBefore : (s.solvedValue v == s.solvedValue v) = true :=
      number_of_beq (PartialEquivBEq.symm hMoved)
    have hRead := h.values v (fun hMem => hv (hLogs.grows v hMem)) hBefore
    rw [getValue, hLogs.published]
    exact PartialEquivBEq.trans hRead hMoved
  published v hv := by
    rw [hLogs.published] at hv
    rcases h.published v hv with hTracked | hMem
    · exact hLogs.tracked v hTracked
    · exact .inr (hLogs.grows v hMem)

section Fetching

/-- What a fetch publishes for a variable of the log. -/
def publication (s : Solver α) (v : Variable) : Option α :=
  if s.solvedValue v + 0 == 0 && !s.tracked.isTracked v then none else some (s.solvedValue v + 0)

omit [NumericEquality α] in
theorem get?_publish (published : Registry Variable α) :
    (s.publish published (v, s.solvedValue v + 0)).get? w =
      if v = w then s.publication v else published.get? w := by
  rw [publish, publication]
  dsimp only
  split
  · exact Registry.get?_erase published v w
  · exact Registry.get?_insert published v w _

omit [NumericEquality α] in
theorem get?_foldl_publish (vs : List Variable) (published : Registry Variable α) :
    ((vs.map fun v => (v, s.solvedValue v + 0)).foldl s.publish published).get? w =
      if w ∈ vs then s.publication w else published.get? w := by
  induction vs generalizing published with
  | nil => rfl
  | cons v rest ih =>
    rw [List.map_cons, List.foldl_cons, ih, get?_publish]
    by_cases hRest : w ∈ rest
    · rw [if_pos hRest, if_pos (List.mem_cons_of_mem v hRest)]
    · rw [if_neg hRest]
      by_cases hw : v = w
      · rw [if_pos hw, if_pos (hw ▸ List.mem_cons_self), hw]
      · rw [if_neg hw, if_neg]
        simp [hRest, Ne.symm hw]

omit [NumericEquality α] in
theorem get?_published_fetchChanges : s.fetchChanges.2.published.get? v =
    if v ∈ s.changes.recording then s.publication v else s.published.get? v :=
  get?_foldl_publish s.changes.recording s.published

theorem publication_beq (hNumber : (s.solvedValue v == s.solvedValue v) = true) :
    ((s.publication v).getD 0 == s.solvedValue v) = true := by
  have hSum := NumericEquality.add_beq hNumber NumericEquality.zero_beq_zero
  rw [publication]
  split
  · rename_i hDropped
    exact PartialEquivBEq.trans
      (PartialEquivBEq.symm (Bool.and_eq_true_iff.mp hDropped).1) hSum
  · exact hSum

/-- The zero of an untracked variable is not published. -/
theorem tracked_of_publication (h : (s.publication v).isSome = true) :
    s.tracked.isTracked v = true := by
  by_contra hUntracked
  have hNone : s.tracked.symbol? v = none := by
    rw [← Option.not_isSome_iff_eq_none]
    intro hSome
    exact hUntracked (VariableTable.isTracked_iff.mpr (Option.isSome_iff_exists.mp hSome))
  have hZero : ((0 : α) + 0 == 0) = true :=
    NumericEquality.add_beq NumericEquality.zero_beq_zero NumericEquality.zero_beq_zero
  rw [publication, solvedValue_of_untracked hNone, if_pos (by simp [hZero, hUntracked])] at h
  cases h

theorem getValue_fetchChanges (h : s.Current)
    (hNumber : (s.solvedValue v == s.solvedValue v) = true) :
    (s.fetchChanges.2.getValue v == s.solvedValue v) = true := by
  rw [getValue, get?_published_fetchChanges]
  split
  · exact publication_beq hNumber
  · rename_i hNot
    exact h.values v hNot hNumber

theorem tracked_of_mem_published_fetchChanges (h : s.Current)
    (hv : v ∈ s.fetchChanges.2.published.keys) : s.tracked.isTracked v = true := by
  rw [← Registry.contains_eq_true_iff, Registry.contains, get?_published_fetchChanges] at hv
  split at hv
  · exact tracked_of_publication hv
  · rename_i hNot
    exact (h.published v ((Registry.contains_eq_true_iff _ _).mp hv)).resolve_right hNot

theorem Current.fetchChanges (h : s.Current) : s.fetchChanges.2.Current where
  nodup := .nil
  values _ _ hNumber := getValue_fetchChanges h hNumber
  published _ hv := .inl (tracked_of_mem_published_fetchChanges (s := s) h hv)

omit [NumericEquality α] in
theorem mem_changes_iff {c : Variable × α} : c ∈ s.fetchChanges.1 ↔
    c.1 ∈ s.changes.recording ∧ c.2 = s.solvedValue c.1 + 0 ∧
      (s.solvedValue c.1 + 0 == s.getValue c.1) = false := by
  show c ∈ (s.changes.recording.map fun v => (v, s.solvedValue v + 0)).filter _ ↔ _
  rw [List.mem_filter, List.mem_map]
  constructor
  · rintro ⟨⟨v, hv, rfl⟩, hChanged⟩
    exact ⟨hv, rfl, by simpa using hChanged⟩
  · rintro ⟨hv, hValue, hChanged⟩
    exact ⟨⟨c.1, hv, Prod.ext rfl hValue.symm⟩, by rw [hValue, hChanged]; rfl⟩

omit [NumericEquality α] in
theorem nodup_changes (h : s.changes.recording.Nodup) :
    (s.fetchChanges.1.map Prod.fst).Nodup := by
  have hSublist : (s.fetchChanges.1.map Prod.fst).Sublist
      ((s.changes.recording.map fun v => (v, s.solvedValue v + 0)).map Prod.fst) :=
    List.filter_sublist.map Prod.fst
  rw [List.map_map] at hSublist
  exact h.sublist (hSublist.trans (by simp [Function.comp_def]))

/-- A variable outside the log reads as it is solved, so its value would be no change. -/
theorem Current.mem_recording (h : s.Current)
    (hNumber : (s.solvedValue v == s.solvedValue v) = true)
    (hChanged : (s.solvedValue v + 0 == s.getValue v) = false) : v ∈ s.changes.recording := by
  by_contra hNot
  have hSum : (s.solvedValue v + 0 == s.solvedValue v) = true :=
    NumericEquality.add_beq hNumber NumericEquality.zero_beq_zero
  have hSame := PartialEquivBEq.trans hSum (PartialEquivBEq.symm (h.values v hNot hNumber))
  rw [hSame] at hChanged
  cases hChanged

/-- A fetch reports a variable exactly when the value that callers read becomes another. -/
theorem mem_changes_fst_iff (h : s.Current)
    (hNumber : (s.solvedValue v == s.solvedValue v) = true) :
    v ∈ s.fetchChanges.1.map Prod.fst ↔
      (s.fetchChanges.2.getValue v == s.getValue v) = false := by
  have hSum : (s.solvedValue v + 0 == s.solvedValue v) = true :=
    NumericEquality.add_beq hNumber NumericEquality.zero_beq_zero
  have hRead := getValue_fetchChanges h hNumber
  have hCompare : (s.fetchChanges.2.getValue v == s.getValue v) =
      (s.solvedValue v + 0 == s.getValue v) :=
    (BEq.congr_left hRead).trans (BEq.congr_left hSum).symm
  rw [hCompare]
  constructor
  · intro hMem
    obtain ⟨c, hc, rfl⟩ := List.mem_map.mp hMem
    exact (mem_changes_iff.mp hc).2.2
  · intro hChanged
    have hLogged := h.mem_recording hNumber hChanged
    exact List.mem_map.mpr
      ⟨(v, s.solvedValue v + 0), mem_changes_iff.mpr ⟨hLogged, rfl, hChanged⟩, rfl⟩

theorem changes_beq_getValue (h : s.Current) {c : Variable × α} (hc : c ∈ s.fetchChanges.1)
    (hNumber : (s.solvedValue c.1 == s.solvedValue c.1) = true) :
    (c.2 == s.fetchChanges.2.getValue c.1) = true := by
  rw [(mem_changes_iff.mp hc).2.1]
  exact PartialEquivBEq.trans (NumericEquality.add_beq hNumber NumericEquality.zero_beq_zero)
    (PartialEquivBEq.symm (getValue_fetchChanges h hNumber))

end Fetching

section Runs

variable {issued : Set Symbol}

theorem current_withPivotLimit (limit : Nat) : (withPivotLimit limit : Solver α).Current where
  nodup := .nil
  values _ _ _ := NumericEquality.zero_beq_zero
  published _ hv := by cases hv

theorem Current.perform (h : s.Current) (hCoherent : s.Coherent issued) (op : Operation α) :
    (s.perform op).2.Current := by
  cases hRepublishes : op.republishes with
  | false => exact h.logs ((hCoherent.perform op).2 hRepublishes)
  | true =>
    cases op with
    | fetchChanges => exact h.fetchChanges
    | reset => exact current_withPivotLimit s.pivotLimit
    | _ => cases hRepublishes

theorem Current.run (h : s.Current) (hCoherent : s.Coherent issued) (ops : List (Operation α)) :
    (s.run ops).2.Current := by
  induction ops generalizing s issued with
  | nil => exact h
  | cons op rest ih =>
    obtain ⟨⟨later, hNext⟩, _⟩ := hCoherent.perform op
    exact ih (h.perform hCoherent op) hNext

theorem current_reached (limit : Nat) (ops : List (Operation α)) :
    (reached limit ops : Solver α).Current :=
  (current_withPivotLimit limit).run (coherent_withPivotLimit limit) ops

/-- Every row has a number for its constant. -/
def HasNumbers (s : Solver α) : Prop :=
  ∀ e ∈ s.tableau.rows.entries, (e.2.constant == e.2.constant) = true

omit [NumericEquality α] in
instance : Decidable s.HasNumbers :=
  inferInstanceAs (Decidable (∀ e ∈ s.tableau.rows.entries, (e.2.constant == e.2.constant) = true))

theorem HasNumbers.solvedValue (h : s.HasNumbers) (v : Variable) :
    (s.solvedValue v == s.solvedValue v) = true := by
  rw [Solver.solvedValue]
  split
  · exact NumericEquality.zero_beq_zero
  · rw [Tableau.value]
    split
    · exact NumericEquality.zero_beq_zero
    · rename_i hGet
      obtain ⟨x, _, hRow⟩ := SymbolMap.exists_mem_of_get? hGet
      exact h _ hRow

/-- After every run that leaves numbers in the rows, whatever was answered on the way: a fetch makes
all values that callers read equal to the solved values, and reports each variable whose value it
changes, once and with the new value. What stays published is tracked, the next fetch reports nothing,
and no operation but fetching and resetting changes what callers read. -/
theorem published_values_exact_of_run (limit : Nat) (ops : List (Operation α))
    (hNumbers : (reached limit ops : Solver α).HasNumbers) :
    let s : Solver α := reached limit ops
    let changes := s.fetchChanges.1
    let after := s.fetchChanges.2
    (∀ v, (after.getValue v == after.solvedValue v) = true) ∧
    (changes.map Prod.fst).Nodup ∧
    (∀ v, v ∈ changes.map Prod.fst ↔ (after.getValue v == s.getValue v) = false) ∧
    (∀ c ∈ changes, (c.2 == after.getValue c.1) = true) ∧
    (∀ v ∈ after.published.keys, after.tracked.isTracked v = true) ∧
    after.fetchChanges.1 = [] ∧
    ∀ op : Operation α, op.republishes = false → ∀ v, (s.perform op).2.getValue v = s.getValue v := by
  have h : (reached limit ops : Solver α).Current := current_reached limit ops
  obtain ⟨issued, hCoherent⟩ := coherent_reached (α := α) limit ops
  refine ⟨fun v => getValue_fetchChanges h (hNumbers.solvedValue v), nodup_changes h.nodup,
    fun v => mem_changes_fst_iff h (hNumbers.solvedValue v),
    fun c hc => changes_beq_getValue h hc (hNumbers.solvedValue c.1),
    fun v hv => tracked_of_mem_published_fetchChanges (s := reached limit ops) h hv, rfl, fun op hOp v => ?_⟩
  rw [getValue, ((hCoherent.perform op).2 hOp).published, getValue]

end Runs

/-- Two numbers of which the first is to be four and the sum is to be ten, until the sum is dropped and
the second number with it. -/
def droppedSplit : List (Operation Float) :=
  [.addEditVariable ⟨1⟩ .strong 1,
    .suggestValue ⟨1⟩ 4,
    .addConstraint (.make 2 ⟨[⟨⟨1⟩, 1⟩, ⟨⟨2⟩, 1⟩], -10⟩ .equal .required),
    .fetchChanges,
    .suggestValue ⟨1⟩ 2.5,
    .removeConstraint 2]

theorem published_values_exact_of_droppedSplit :
    (∀ v, ((reached 10 droppedSplit).fetchChanges.2.getValue v ==
      (reached 10 droppedSplit).fetchChanges.2.solvedValue v) = true) ∧
    (reached 10 droppedSplit).fetchChanges.1.map Prod.fst = [⟨1⟩, ⟨2⟩] := by
  obtain ⟨hValues, _⟩ := published_values_exact_of_run 10 droppedSplit (by decide +kernel)
  exact ⟨hValues, by decide +kernel⟩

end Solver

end SoftSimplex
