import SoftSimplex.Proofs.ConstraintInsertion
import SoftSimplex.Proofs.ConstraintRemoval
import SoftSimplex.Proofs.EditShiftPass
import SoftSimplex.Solver.Editing

/-!
# Edit variables keep the invariant

An edit variable comes and goes with its constraint. A suggestion moves the constant of that one
constraint: at a moved assignment the old equation has the value of the new one.
-/

namespace SoftSimplex
set_option autoImplicit false

open Tableau (moveColumn Moved)

namespace Solver

variable {issued : Set Symbol} {s : Solver Rat} {v : Variable} {edit : Edit Rat} {x δ : Rat}
  {t u : Tableau Rat} {l : LiveConstraint Rat} {a : Nat → Rat} {y : Symbol}

section Registration

theorem target_insert_zero {tag : Tag} {c : Constraint Rat} (hNew : s.edits.get? v = none)
    (id : Nat) :
    target { s with edits := s.edits.insert v ⟨tag, c, 0⟩ } id = s.target id := by
  rw [target, target, Registry.values_insert hNew, List.find?_append]
  cases s.edits.values.find? fun e => e.constraint.id == id with
  | some e => rfl
  | none =>
    rw [Option.none_or, List.find?_singleton]
    by_cases hId : c.id = id <;> simp [hId]

theorem Sound.register_edit (h : s.Sound issued) {tag : Tag} {c : Constraint Rat}
    (hNew : s.edits.get? v = none) (hEdit : LiveEdit s.constraints v ⟨tag, c, 0⟩) :
    ({ s with edits := s.edits.insert v ⟨tag, c, 0⟩ } : Solver Rat).Sound issued where
  ledger :=
    { numbered := h.ledger.numbered
      named := h.ledger.named
      counts := h.ledger.counts
      keys := h.ledger.keys
      marks := h.ledger.marks
      columns := h.ledger.columns
      apart := h.ledger.apart
      edits := by
        intro e he
        rcases Registry.mem_insert_iff.mp he with rfl | ⟨he, _⟩
        · exact hEdit
        · exact h.ledger.edits e he }
  rest := h.rest
  meaning := h.meaning.of_equations rfl
    (fun _ _ _ => equation_congr (target_insert_zero hNew _) fun _ _ => rfl) rfl rfl

theorem liveEdit_make {constraints : Registry Nat (LiveConstraint Rat)} {id : Nat} {tag : Tag}
    {w : Strength Rat} (hStrength : w.isRequired = false)
    (hLive : constraints.get? id =
      some ⟨Constraint.make id (.ofVariable v) .equal w, tag⟩) :
    LiveEdit constraints v ⟨tag, Constraint.make id (.ofVariable v) .equal w, 0⟩ :=
  ⟨hLive, Strength.isRequired_clip hStrength, rfl, rfl⟩

end Registration

section Suggestion

theorem moveColumn_eq_add (a : Nat → Rat) (y : Symbol) (δ : Rat) :
    moveColumn a y δ = a + Function.update (0 : Nat → Rat) y.id δ := by
  funext n
  by_cases hn : n = y.id
  · subst hn
    simp [moveColumn]
  · simp [moveColumn, Function.update_of_ne hn]

theorem errorCost_add (s : Solver Rat) (a b : Nat → Rat) :
    s.errorCost (a + b) = s.errorCost a + s.errorCost b := by
  simp only [errorCost, Tag.errorSum_add, mul_add, List.sum_map_add]

/-- Moving the marker of an edit constraint forward or its other column back takes the distance off
the constraint's balance. -/
theorem LiveEdit.balance_move {constraints : Registry Nat (LiveConstraint Rat)}
    (hEdit : LiveEdit constraints v edit) (hMarks : edit.tag.Marks edit.constraint) {δ' : Rat}
    (hMove : (y = edit.tag.marker ∧ δ' = δ) ∨ (y ∈ edit.tag.other ∧ δ' = -δ)) :
    edit.tag.balance edit.constraint (moveColumn a y δ') =
      edit.tag.balance edit.constraint a - δ := by
  obtain ⟨o, ho, hne, hBalance, _⟩ := hMarks.balance_of_not_required hEdit.optional
  have hSign : Tag.markerSign edit.constraint = -1 := by
    simp [Tag.markerSign, hEdit.equal, hEdit.optional]
  rw [hBalance, hBalance, hSign]
  rcases hMove with ⟨rfl, rfl⟩ | ⟨hy, rfl⟩
  · rw [moveColumn, Function.update_self, Function.update_of_ne hne]
    ring
  · obtain rfl : y = o := Option.some.inj (Eq.trans (Eq.symm hy) ho)
    rw [moveColumn, Function.update_self, Function.update_of_ne hne.symm]
    ring

/-- The solver after a suggestion, apart from its tableau. -/
def withSuggestion (s : Solver Rat) (v : Variable) (edit : Edit Rat) (x : Rat) : Solver Rat :=
  { s with edits := s.edits.insert v { edit with value := x } }

variable (h : s.Ledger issued) (hEdit : s.edits.get? v = some edit)
include h hEdit

theorem Ledger.liveEdit : LiveEdit s.constraints v edit :=
  h.edits _ (Registry.get?_eq_some_iff.mp hEdit)

theorem Ledger.marks_edit : edit.tag.Marks edit.constraint :=
  h.marks ⟨edit.constraint, edit.tag⟩ (mem_values_of_get? (h.liveEdit hEdit).live)

theorem Ledger.withSuggestion : (s.withSuggestion v edit x).Ledger issued where
  numbered := h.numbered
  named := h.named
  counts := h.counts
  keys := h.keys
  marks := h.marks
  columns := h.columns
  apart := h.apart
  edits e he := by
    rcases Registry.mem_insert_iff.mp he with rfl | ⟨he, _⟩
    · have hLive := h.liveEdit hEdit
      exact ⟨hLive.live, hLive.optional, hLive.equal, hLive.terms⟩
    · exact h.edits e he

theorem Ledger.target_suggested :
    (s.withSuggestion v edit x).target edit.constraint.id = x := by
  have hAfter := h.withSuggestion hEdit (x := x)
  have hSuggested : (s.withSuggestion v edit x).edits.get? v = some { edit with value := x } := by
    rw [Solver.withSuggestion, Registry.get?_insert, if_pos rfl]
  exact hAfter.target_edit hSuggested

theorem Ledger.target_other {id : Nat} (hne : id ≠ edit.constraint.id) :
    (s.withSuggestion v edit x).target id = s.target id := by
  have hAfter := h.withSuggestion hEdit (x := x)
  by_cases hFound : ∃ e ∈ s.edits.values, e.constraint.id = id
  · obtain ⟨e, he, rfl⟩ := hFound
    obtain ⟨w, hw⟩ := Registry.mem_values_iff.mp he
    have hKey : w ≠ v := by
      rintro rfl
      exact hne (congrArg (fun e : Edit Rat => e.constraint.id)
        (Option.some.inj ((Registry.get?_eq_some_iff.mpr hw).symm.trans hEdit)))
    rw [h.target_edit (Registry.get?_eq_some_iff.mpr hw)]
    refine hAfter.target_edit (v := w) ?_
    rw [Solver.withSuggestion, Registry.get?_insert, if_neg hKey.symm]
    exact Registry.get?_eq_some_iff.mpr hw
  · have hNone : ∀ e ∈ s.edits.values, e.constraint.id ≠ id := fun e he hId => hFound ⟨e, he, hId⟩
    rw [target_of_forall_ne hNone]
    refine target_of_forall_ne fun e he => ?_
    obtain ⟨w, hw⟩ := Registry.mem_values_iff.mp he
    rcases Registry.mem_insert_iff.mp hw with hPair | ⟨hw, _⟩
    · obtain rfl := congrArg Prod.snd hPair
      exact hne.symm
    · exact hNone e (Registry.mem_values_iff.mpr ⟨w, hw⟩)

/-- How a suggestion moves the columns of its constraint. -/
def Shifts (edit : Edit Rat) (y : Symbol) (δ δ' : Rat) : Prop :=
  (y = edit.tag.marker ∧ δ' = δ) ∨ (y ∈ edit.tag.other ∧ δ' = -δ)

omit h hEdit in
theorem mem_symbols_of_shifts {δ' : Rat} (hShifts : Shifts edit y δ δ') : y ∈ edit.tag.symbols := by
  rcases hShifts with ⟨rfl, _⟩ | ⟨hy, _⟩
  · exact edit.tag.marker_mem_symbols
  · exact List.mem_cons_of_mem _ (Option.mem_toList.mpr hy)

/-- At the moved assignment the old equations have the values of the new ones. -/
theorem Ledger.equation_suggested {δ' : Rat} (hShifts : Shifts edit y (x - edit.value) δ')
    (hl : l ∈ s.constraints.values) :
    (s.withSuggestion v edit x).equation l a = s.equation l (moveColumn a y δ') := by
  have hOwn := mem_symbols_of_shifts hShifts
  have hLive := (h.liveEdit hEdit).live
  have hEditMem := mem_values_of_get? hLive
  have hKind := (h.marks_edit hEdit).restricted hOwn
  have hTracked : s.tracked.valuation (moveColumn a y δ') = s.tracked.valuation a :=
    h.valuation_update (h.columns _ hEditMem y hOwn) hKind _
  rw [equation, equation, residual, residual, hTracked]
  by_cases hId : l.constraint.id = edit.constraint.id
  · obtain rfl : l = ⟨edit.constraint, edit.tag⟩ :=
      Option.some.inj ((h.get?_of_mem hl).symm.trans (hId ▸ hLive))
    rw [h.target_suggested hEdit, h.target_edit hEdit,
      (h.liveEdit hEdit).balance_move (h.marks_edit hEdit) hShifts]
    show edit.constraint.expression.value (s.tracked.valuation a) - x + _ = _
    ring
  · have hApart : l ≠ ⟨edit.constraint, edit.tag⟩ := fun hSame => hId (hSame ▸ rfl)
    have hBalance : l.tag.balance l.constraint (moveColumn a y δ') =
        l.tag.balance l.constraint a := Tag.balance_congr fun z hz =>
      Tableau.moveColumn_of_ne (h.column_ne hl hEditMem hApart hz hOwn)
    rw [h.target_other hEdit hId, hBalance]
    rfl

omit h in
theorem Sound.represents_suggested (h : s.Sound issued) {δ' : Rat}
    (hShifts : Shifts edit y (x - edit.value) δ') (hMoved : Moved issued s.tableau u y δ') :
    (s.withSuggestion v edit x).Represents u := by
  refine ⟨fun a => ?_, hMoved.size.trans h.meaning.size, ?_⟩
  · rw [hMoved.rows, h.meaning.rows]
    refine forall₂_congr fun l hl => ?_
    rw [h.ledger.equation_suggested hEdit hShifts hl]
  · obtain ⟨k, hk⟩ := h.meaning.objective
    refine ⟨k + s.errorCost (Function.update (0 : Nat → Rat) y.id δ') -
      s.tableau.objective.coefficient y * δ', fun a hSat => ?_⟩
    have hOld := hk _ ((hMoved.rows a).mp hSat)
    rw [Tableau.value_moveColumn, moveColumn_eq_add, errorCost_add] at hOld
    have hSame : (s.withSuggestion v edit x).errorCost a = s.errorCost a := rfl
    rw [hMoved.cells.objective, hSame]
    linarith

end Suggestion

/-- The ways in which an operation on an edit variable can end: a breakdown, a refusal that changes
nothing, or a sound solver. -/
inductive Editing (s : Solver Rat) (a : Attempt SolverError Unit (Solver Rat)) : Prop where
  | broken (cause : Breakdown) (result : a.result = .error (.breakdown cause))
  | refused (error : SolverError) (result : a.result = .error error) (state : a.state = s)
  | done (issued : Set Symbol) (result : a.result = .ok ()) (sound : a.state.Sound issued)
      (pinned : s.tableau.Pinned → a.state.tableau.Pinned)

theorem editRefusal?_eq_none {α : Type} [Scalar α] {s : Solver α} {w : Strength α}
    (h : s.editRefusal? v w = none) :
    s.edits.get? v = none ∧ w.isRequired = false := by
  rw [editRefusal?] at h
  split at h
  · cases h
  · rename_i hNew
    split at h
    · cases h
    · rename_i hStrength
      exact ⟨by simpa [hasEditVariable, Registry.contains] using hNew, by simpa using hStrength⟩

theorem Accepted.registered {w : Strength Rat} {id : Nat} {tag : Tag} {after : Solver Rat}
    (hAccepted : Accepted issued s (Constraint.make id (.ofVariable v) .equal w) tag after)
    (hFree : s.editRefusal? v w = none) :
    ({ after with
      edits := after.edits.insert v ⟨tag, Constraint.make id (.ofVariable v) .equal w, 0⟩ } :
      Solver Rat).Sound issued := by
  obtain ⟨hNew, hStrength⟩ := editRefusal?_eq_none hFree
  have hLive : after.constraints.get? id =
      some ⟨Constraint.make id (.ofVariable v) .equal w, tag⟩ := by
    rw [hAccepted.constraints, Registry.get?_insert]
    exact if_pos rfl
  refine hAccepted.sound.register_edit ?_ (liveEdit_make hStrength hLive)
  rw [hAccepted.edits, hNew]

theorem Sound.addition_edit (h : s.Sound issued) (v : Variable) (w : Strength Rat) (id : Nat) :
    Editing s (s.addEditVariable v w id) := by
  rw [addEditVariable]
  split
  · rename_i e _
    exact .refused e rfl rfl
  · rename_i hFree
    have hInsertion := h.insertion (Constraint.make id (.ofVariable v) .equal w)
    dsimp only
    generalize s.insertConstraint (Constraint.make id (.ofVariable v) .equal w) = a at hInsertion
    obtain ⟨result, after⟩ := a
    cases hInsertion with
    | duplicate _ hResult _ =>
      obtain rfl : result = _ := hResult
      exact .broken _ rfl
    | broken cause hResult =>
      obtain rfl : result = _ := hResult
      exact .broken cause rfl
    | refused _ _ hResult _ _ _ =>
      obtain rfl : result = _ := hResult
      exact .broken _ rfl
    | accepted _ more tag hResult hAccepted =>
      obtain rfl : result = _ := hResult
      exact .done more rfl (hAccepted.registered hFree) hAccepted.pinned

theorem filter_edits_erase (hEdit : s.edits.get? v = some edit) :
    (s.edits.erase v).filter (fun _ e => !(e.constraint.id == edit.constraint.id)) =
      (s.retireEdit edit.constraint.id).edits := by
  have hEntries : ((s.edits.erase v).filter
      fun _ e => !(e.constraint.id == edit.constraint.id)).entries =
        (s.retireEdit edit.constraint.id).edits.entries := by
    simp only [Registry.erase, Registry.filter, retireEdit, List.filter_filter]
    refine List.filter_congr fun e he => ?_
    by_cases hKey : e.1 = v
    · have hSame : e.2 = edit := Option.some.inj
        ((Registry.get?_eq_some_iff.mpr (hKey ▸ he)).symm.trans hEdit)
      simp [hSame]
    · simp [hKey]
  cases hLeft : (s.edits.erase v).filter fun _ e => !(e.constraint.id == edit.constraint.id)
  cases hRight : (s.retireEdit edit.constraint.id).edits
  rw [hLeft, hRight] at hEntries
  subst hEntries
  rfl

theorem Sound.removal_edit (h : s.Sound issued) (v : Variable) :
    Editing s (s.removeEditVariable v) := by
  rw [removeEditVariable]
  split
  · exact .refused _ rfl rfl
  · rename_i edit hEdit
    have hLive := h.ledger.liveEdit hEdit
    have hMember := mem_values_of_get? hLive.live
    have hRemoval := h.removal hLive.live _ (filter_edits_erase hEdit)
    generalize ({ s with edits := s.edits.erase v } : Solver Rat).removeConstraint
      edit.constraint.id = a at hRemoval
    obtain ⟨result, after⟩ := a
    cases hRemoval with
    | broken cause hResult =>
      obtain rfl : result = _ := hResult
      exact .broken cause rfl
    | removed hResult hRemoved =>
      obtain rfl : result = _ := hResult
      refine .done issued rfl hRemoved.sound fun hPinned => hRemoved.pinned hPinned ?_
      refine hPinned.not_loosens h.rest.regular.solved h.ledger.numbered.distinct
        (h.ledger.marker_mem hMember) ?_
      by_contra hDummy
      have hRequired := ((h.ledger.marks _ hMember).isDummy_marker_iff.mp (by simpa using hDummy)).1
      rw [hLive.optional] at hRequired
      cases hRequired

theorem LiveEdit.kind_error {constraints : Registry Nat (LiveConstraint Rat)}
    (hEdit : LiveEdit constraints v edit) (hMarks : edit.tag.Marks edit.constraint)
    (hy : y ∈ edit.tag.symbols) : y.kind = .error := by
  obtain ⟨last, hTag⟩ := hMarks
  rw [hTag] at hy
  simp only [Tag.ofConstraint, hEdit.equal, hEdit.optional, Tag.symbols, Option.toList_some,
    List.mem_cons, List.not_mem_nil, or_false] at hy
  rcases hy with rfl | rfl <;> rfl

/-- The shifted tableau represents the suggestion and is ready for the dual pass. -/
theorem Sound.shifted (h : s.Sound issued) (hEdit : s.edits.get? v = some edit) (x : Rat) :
    ∃ y δ', Moved issued s.tableau (s.tableau.shiftEdit edit.tag (x - edit.value)) y δ' ∧
      (s.withSuggestion v edit x).Represents (s.tableau.shiftEdit edit.tag (x - edit.value)) := by
  have hMarks := h.ledger.marks_edit hEdit
  have hLive := h.ledger.liveEdit hEdit
  have hMember := mem_values_of_get? hLive.live
  rcases h.rest.regular.moved_shiftEdit h.rest.orderly h.rest.feasible h.ledger.numbered.distinct
    (h.ledger.columns _ hMember) (fun _ hy => hLive.kind_error hMarks hy) (x - edit.value)
    with hMoved | ⟨y, hy, hMoved⟩
  · exact ⟨_, _, hMoved, h.represents_suggested hEdit (.inl ⟨rfl, rfl⟩) hMoved⟩
  · exact ⟨_, _, hMoved, h.represents_suggested hEdit (.inr ⟨hy, rfl⟩) hMoved⟩

theorem Sound.same_suggestion (h : s.Sound issued) (hEdit : s.edits.get? v = some edit)
    (hSame : x - edit.value = 0) : (s.withSuggestion v edit x).Sound issued where
  ledger := h.ledger.withSuggestion hEdit
  rest := h.rest
  meaning := by
    have hTarget : ∀ id, (s.withSuggestion v edit x).target id = s.target id := by
      intro id
      by_cases hId : id = edit.constraint.id
      · rw [hId, h.ledger.target_suggested hEdit, h.ledger.target_edit hEdit]
        exact sub_eq_zero.mp hSame
      · exact h.ledger.target_other hEdit hId
    refine ⟨fun a => ?_, h.meaning.size, h.meaning.objective⟩
    refine (h.meaning.rows a).trans (forall₂_congr fun l _ => ?_)
    rw [equation_congr (s := s) (hTarget _) fun _ _ => rfl]

theorem Sound.suggestion (h : s.Sound issued) (v : Variable) (x : Rat) :
    Editing s (s.suggestValue v x) := by
  rw [suggestValue]
  split
  · exact .refused _ rfl rfl
  · rename_i edit hEdit
    have hFinite : Scalar.isFinite x = true := rfl
    simp only [hFinite, Bool.not_true, Bool.false_eq_true, if_false]
    split
    · rename_i hSame
      exact .done issued rfl (h.same_suggestion hEdit (by simpa using hSame)) id
    · obtain ⟨y, δ', hMoved, hSays⟩ := h.shifted hEdit x
      have hDual : (s.tableau.shiftEdit edit.tag (x - edit.value)).DualFeasible := fun e he =>
        h.rest.dualFeasible e (hMoved.cells.objective ▸ he)
      split
      · rename_i t hOptimize
        have hSettled := Tableau.dualOptimize_settles h.ledger.numbered.distinct
          (hMoved.cells.regular h.rest.regular) hMoved.orderly hDual hMoved.queued hOptimize
        exact .done issued rfl (sound_absorb (h.ledger.withSuggestion hEdit) hSays hSettled
          (hMoved.cells.artificial.trans h.rest.artificial)) fun hPinned =>
            (hSettled.pinned (hMoved.pinned hPinned)).mono rfl
      · exact .broken _ rfl

end Solver

end SoftSimplex
