import SoftSimplex.Proofs.CoherentRuns
import SoftSimplex.Proofs.InsertedRow
import SoftSimplex.Proofs.Optimality

/-!
# Adding a constraint and removing it again

The books are as before, entry for entry. The tableau may have another basis, but it stands at an
optimum of the same constraints. That nothing required is lost on the way takes an argument about the
dummies: the rows of the dummies that were basic before the addition are still the same after it, so the
new marker is in none of them when it is dropped.
-/

namespace SoftSimplex
set_option autoImplicit false

open Tableau (Lasting SameRows Closed)

/-- No dummy enters, so rows of dummies that mention dummies only are never touched. -/
theorem Tableau.Closed.lasting_of_dummies {issued F : Set Symbol} {t : Tableau Rat} {goal : Goal}
    (h : t.Closed F) (hDummies : ∀ x ∈ F, x.isDummy = true)
    (hDistinct : Set.InjOn Symbol.id issued) : Lasting issued goal (t.SameRows F) where
  pivot v leaving row entering hRegular hSame hPivot _ := by
    refine hSame.trans ((h.of_sameRows hSame).sameRows_pivot hDistinct hRegular.solved hPivot ?_)
    intro hIn
    cases (hDummies entering hIn).symm.trans hPivot.not_dummy
  congr v u hRows _ _ hSame := hSame.trans (.of_rows_eq hRows)

namespace Solver

variable {issued more F : Set Symbol} {s next base added after : Solver Rat} {c : Constraint Rat}
  {row : Row Rat} {tag : Tag} {t : Tableau Rat}

section Dummies

/-- The dummies but for one marker. -/
def otherDummies (marker : Symbol) : Set Symbol := {x | x.isDummy = true ∧ x.id ≠ marker.id}

theorem subject_not_other {subject : Symbol}
    (hCode : Encoded issued more s s.mentioned c row tag next)
    (hBasic : Placement.of row tag = .basic subject) : subject ∉ otherDummies tag.marker := by
  rintro ⟨hDummy, hId⟩
  rcases basic_cases hBasic with ⟨_, hExternal⟩ | ⟨hOwn, _⟩ | ⟨rfl, _⟩
  · cases (Symbol.isExternal_of_isDummy hDummy).symm.trans hExternal
  · exact hId (congrArg Symbol.id (hCode.marks.eq_marker_of_isDummy hOwn hDummy).1)
  · exact hId rfl

theorem Places.sameRows (hPlace : Places next row tag base t)
    (hCode : Encoded issued more s s.mentioned c row tag next) (h : s.Sound issued)
    (hClosed : s.tableau.Closed (otherDummies tag.marker)) :
    s.tableau.SameRows (otherDummies tag.marker) t := by
  have hNext : s.tableau.SameRows (otherDummies tag.marker) next.tableau := .of_rows_eq hCode.rows
  have hStill := hClosed.of_sameRows hNext
  refine hNext.trans ?_
  cases hPlace with
  | @basic subject hBasic =>
    obtain ⟨hIssued, hNew⟩ := hCode.subject_new h.rest.regular.solved hBasic
    have hOut := subject_not_other hCode hBasic
    exact Tableau.sameRows_install hNew hOut
      (hStill.shuns hCode.numbered.distinct hCode.regular.solved hIssued hOut)
  | phaseOne hPhaseOne hPass =>
    obtain ⟨_, hKinds, _⟩ := hCode.of_phaseOne hPhaseOne
    have hFresh := fresh_slack hCode
    have hDistinct := hFresh.distinct hCode.numbered.distinct
    have hOut : (⟨.slack, next.lastSymbol + 1⟩ : Symbol) ∉ otherDummies tag.marker := by
      rintro ⟨hDummy, _⟩
      cases hDummy
    have hStart : next.tableau.SameRows (otherDummies tag.marker)
        (next.tableau.phaseOneStart ⟨.slack, next.lastSymbol + 1⟩ row) :=
      (Tableau.sameRows_insertRow (hCode.regular.keys_ne_fresh hFresh) hOut).trans (.of_rows_eq rfl)
    obtain ⟨v, hRegular, hSame, hRetired⟩ :=
      (hStill.lasting_of_dummies (fun x hx => hx.1) hDistinct).insertArtificially
        hCode.numbered.distinct hCode.regular (hCode.orderly_next h.rest) hCode.addable_next hKinds
        hFresh hStart hPass
    have hQuiet := hSame.trans (u := v) (v := { v with artificial := none }) (.of_rows_eq rfl)
    refine hQuiet.trans (hRetired.sameRows (hStill.of_sameRows hQuiet) hDistinct
      (hRegular.mono rfl rfl (by simp)) (Set.mem_insert _ _) hOut ?_)
    rintro row entering hPivot ⟨hDummy, _⟩
    cases hDummy.symm.trans hPivot.not_dummy

variable (h : s.Sound issued) (hPinned : s.tableau.Pinned)
  (hAdd : s.insertConstraint c = ⟨.ok tag, added⟩)
include h hPinned hAdd

theorem Sound.sameRows_added :
    s.tableau.SameRows (otherDummies tag.marker) added.tableau := by
  obtain ⟨more, hMore, hCode⟩ := h.encoded c
  rw [(added_eq hAdd).1]
  have hClosed : s.tableau.Closed (otherDummies (s.encode c).2.1.marker) := by
    rintro e he ⟨hDummy, _⟩ y hy
    have hIssued := h.rest.regular.solved.columns.rows e he y hy
    exact ⟨(hPinned e he hDummy).2 y hy,
      (hCode.own _ (s.encode c).2.1.marker_mem_symbols).2 y hIssued⟩
  exact h.lasting_added hAdd
    (fun most _ hDistinct => hClosed.lasting_of_dummies (fun x hx => hx.1) hDistinct)
    fun base t hPlace => hPlace.sameRows hCode h hClosed

/-- Right after its addition the marker of a constraint can be dropped without loosening a dummy. -/
theorem Sound.not_loosens_added : ¬ added.tableau.Loosens tag.marker := by
  obtain ⟨more, hMore, hCode⟩ := h.encoded c
  have hSame := h.sameRows_added hPinned hAdd
  rw [(added_eq hAdd).1] at hSame ⊢
  rintro ⟨hNonbasic, _, e, he, hDummy, hMarked⟩
  have hOther : e.1 ∈ otherDummies (s.encode c).2.1.marker :=
    ⟨hDummy, SymbolMap.get?_eq_none_iff.mp hNonbasic e.1 (SymbolMap.mem_keys_of_mem he)⟩
  have hOld := h.rest.regular.solved.columns.rows e ((hSame e hOther).mp he)
  apply hMarked
  apply Row.coefficient_of_avoids
  exact hOld.imp fun y hy => (hCode.own _ (s.encode c).2.1.marker_mem_symbols).2 y hy

end Dummies

/-- The live constraints in their order, the tracked variables with their counts, and the edit
variables are the same. -/
structure SameBooks (s after : Solver Rat) : Prop where
  constraints : after.constraints = s.constraints
  tracked : after.tracked = s.tracked
  edits : after.edits = s.edits

/-- A feasible assignment of the least cost. -/
structure Optimal (s : Solver Rat) (x : Variable → Rat) : Prop where
  feasible : s.Feasible x
  least : ∀ y, s.Feasible y → s.cost x ≤ s.cost y

section Books

variable (h : s.SameBooks after)
include h

theorem SameBooks.residual_eq (x : Variable → Rat) (c : Constraint Rat) :
    after.residual x c = s.residual x c := by
  rw [residual, residual, target_congr h.edits]

theorem SameBooks.feasible_iff (x : Variable → Rat) : after.Feasible x ↔ s.Feasible x := by
  rw [Feasible, constraintList, h.constraints]
  exact forall₃_congr fun c _ _ => by rw [h.residual_eq]

theorem SameBooks.cost_eq (x : Variable → Rat) : after.cost x = s.cost x := by
  have hPenalty : after.penalty x = s.penalty x := by
    funext c
    rw [penalty, h.residual_eq, penalty]
  rw [cost, cost, hPenalty, constraintList, h.constraints, constraintList]

theorem SameBooks.optimal_iff (x : Variable → Rat) : after.Optimal x ↔ s.Optimal x := by
  constructor
  · intro hOptimal
    refine ⟨(h.feasible_iff x).mp hOptimal.feasible, fun y hy => ?_⟩
    rw [← h.cost_eq, ← h.cost_eq]
    exact hOptimal.least y ((h.feasible_iff y).mpr hy)
  · intro hOptimal
    refine ⟨(h.feasible_iff x).mpr hOptimal.feasible, fun y hy => ?_⟩
    rw [h.cost_eq, h.cost_eq]
    exact hOptimal.least y ((h.feasible_iff y).mp hy)

end Books

theorem Optimal.cost_eq {x y : Variable → Rat} (hx : s.Optimal x) (hy : s.Optimal y) :
    s.cost x = s.cost y :=
  le_antisymm (hx.least y hy.feasible) (hy.least x hx.feasible)

theorem Sound.optimal_solved (h : s.Sound issued) (hPinned : s.tableau.Pinned) :
    s.Optimal s.solvedValue :=
  ⟨h.feasible_solved hPinned, fun _ hy => h.cost_solved_le hPinned hy⟩

/-- What adding a constraint and removing it again leaves behind. -/
structure Restored (s after : Solver Rat) : Prop where
  books : s.SameBooks after
  sound : ∃ issued, after.Sound issued
  pinned : after.tableau.Pinned

theorem retireEdit_of_no_edit {id : Nat} (hNone : ∀ e ∈ s.edits.entries, e.2.constraint.id ≠ id) :
    (s.retireEdit id).edits = s.edits := by
  refine Registry.eq_of_entries_eq (List.filter_eq_self.mpr fun e he => ?_)
  simpa using hNone e he

theorem Ledger.no_edit (h : s.Ledger issued) {id : Nat} (hNew : s.constraints.get? id = none) :
    ∀ e ∈ s.edits.entries, e.2.constraint.id ≠ id := by
  rintro e he rfl
  cases hNew.symm.trans (h.edits e he).live

theorem books_of_removal {id : Nat} {live : LiveConstraint Rat}
    (hGet : s.constraints.get? id = some live) (hRemove : s.removeConstraint id = ⟨.ok (), after⟩) :
    after.tracked = s.tracked.releaseAll (mentions live.constraint.expression.terms) ∧
      after.edits = (s.retireEdit id).edits := by
  have hRemoves := s.removes id
  rw [hRemove] at hRemoves
  cases hRemoves with
  | @removed found t u hFound hDrop hPass =>
    obtain rfl := Option.some.inj (hGet.symm.trans hFound)
    obtain ⟨dropped, hRelease, _⟩ := release_eq_markAll
      (({ s with constraints := s.constraints.erase id } : Solver Rat).absorb u) live.constraint
    rw [hRelease]
    exact ⟨rfl, rfl⟩

theorem Sound.restored {known : Set Symbol} (h : s.Sound issued) (hCoherent : s.Coherent known)
    (hPinned : s.tableau.Pinned) (hAdd : s.insertConstraint c = ⟨.ok tag, added⟩)
    (hRemove : added.removeConstraint c.id = ⟨.ok (), after⟩) : s.Restored after := by
  have hInsertion := h.insertion c
  rw [hAdd] at hInsertion
  cases hInsertion with
  | accepted hNew more _ hTag hAccepted =>
    obtain rfl := Except.ok.inj hTag
    have hNew := get?_of_not_hasConstraint hNew
    have hGet : added.constraints.get? c.id = some ⟨c, tag⟩ := by
      rw [hAccepted.constraints, Registry.get?_insert, if_pos rfl]
    have hRemoval := hAccepted.sound.removal_of_live hGet
    have hRemoves := added.removes c.id
    rw [hRemove] at hRemoval hRemoves
    cases hRemoval with
    | removed _ hRemoved =>
      obtain ⟨hTracked, hEdits⟩ := books_of_removal hGet hRemove
      refine ⟨⟨?_, ?_, ?_⟩, ⟨more, hRemoved.sound⟩, ?_⟩
      · rw [hRemoved.constraints, hAccepted.constraints, Registry.erase_insert hNew]
      · rw [hTracked, (added_eq hAdd).2]
        exact hCoherent.releaseAll_encode c
      · rw [hEdits, retireEdit_of_no_edit (hAccepted.edits ▸ h.ledger.no_edit hNew)]
        exact hAccepted.edits
      · exact hRemoved.pinned (hAccepted.pinned hPinned) (h.not_loosens_added hPinned hAdd)
    | broken _ hBroken => cases hBroken
  | duplicate _ hResult _ => cases hResult
  | broken _ hResult => cases hResult
  | refused _ _ hResult _ _ _ => cases hResult

theorem Restored.optimal_solved (h : s.Restored after) : s.Optimal after.solvedValue := by
  obtain ⟨issued, hSound⟩ := h.sound
  exact (h.books.optimal_iff _).mp (hSound.optimal_solved h.pinned)

theorem Restored.solvedValue_eq (h : s.Restored after) {v : Variable}
    (hTracked : s.tracked.isTracked v = true → after.solvedValue v = s.solvedValue v) :
    after.solvedValue v = s.solvedValue v := by
  cases hSymbol : s.tracked.symbol? v with
  | some x => exact hTracked (VariableTable.isTracked_iff.mpr ⟨x, hSymbol⟩)
  | none =>
    have hAfter : after.tracked.symbol? v = none := by
      rw [h.books.tracked]
      exact hSymbol
    rw [solvedValue_of_untracked hAfter, solvedValue_of_untracked hSymbol]

/-- After every run that neither breaks down nor removes an equation that must hold, adding a new
constraint and removing it again leaves the books as they were, at the same least cost. If only one
assignment of the tracked variables is optimal, the solved values are the same too. -/
theorem round_trip_of_run (limit : Nat) (ops : List (Operation Rat))
    (hOk : (withPivotLimit limit : Solver Rat).RunsThrough ops)
    (hKeeps : (withPivotLimit limit : Solver Rat).KeepsEquations ops) (c : Constraint Rat)
    (hAdd : ((reached limit ops).addConstraint c).result = .ok ())
    (hRemove : (((reached limit ops).addConstraint c).state.removeConstraint c.id).result =
      .ok ()) :
    let s := reached limit ops
    let after := ((s.addConstraint c).state.removeConstraint c.id).state
    s.SameBooks after ∧ after.cost after.solvedValue = s.cost s.solvedValue ∧
      ((∀ x y, s.Optimal x → s.Optimal y → ∀ v, s.tracked.isTracked v = true → x v = y v) →
        ∀ v, after.solvedValue v = s.solvedValue v) := by
  obtain ⟨issued, hSound⟩ := sound_reached hOk
  obtain ⟨known, hCoherent⟩ := coherent_reached (α := Rat) limit ops
  have hPinned := pinned_reached hOk hKeeps
  obtain ⟨tag, hInsert⟩ := insertConstraint_of_added hAdd
  intro s after
  have hRemove : (s.addConstraint c).state.removeConstraint c.id = ⟨.ok (), after⟩ :=
    congrArg (Attempt.mk · after) hRemove
  have hRestored := hSound.restored hCoherent hPinned hInsert hRemove
  have hBefore := hSound.optimal_solved hPinned
  have hAfter := hRestored.optimal_solved
  refine ⟨hRestored.books, ?_, fun hUnique v => ?_⟩
  · rw [hRestored.books.cost_eq]
    exact hAfter.cost_eq hBefore
  · exact hRestored.solvedValue_eq fun hTracked => hUnique _ _ hAfter hBefore v hTracked

/-- The first number must be two. -/
def firstTwo : Constraint Rat := .make 5 ⟨[⟨⟨1⟩, 1⟩], -2⟩ .equal .required

theorem target_splitOfTen : (reached 10 splitOfTen).target 1 = 0 ∧
    (reached 10 splitOfTen).target 2 = 4 ∧ (reached 10 splitOfTen).target 3 = 0 := by
  decide +kernel

/-- Only the suggestion of four for the first number is weighed. -/
theorem cost_splitOfTen (x : Variable → Rat) : (reached 10 splitOfTen).cost x =
    1000000 * (Relation.excess (x ⟨1⟩ - 4) + Relation.excess (-(x ⟨1⟩ - 4))) := by
  have hOptional : (reached 10 splitOfTen).constraintList.filter (fun c => !c.isRequired) =
      [.make 2 ⟨[⟨⟨1⟩, 1⟩], 0⟩ .equal .strong] := by
    decide +kernel
  have hStrong : (Constraint.make 2 ⟨[⟨⟨1⟩, 1⟩], 0⟩ .equal .strong : Constraint Rat).strength.value =
      1000000 := by
    decide +kernel
  rw [cost, hOptional, List.map_singleton, List.sum_singleton, penalty, hStrong]
  simp [residual, target_splitOfTen, Constraint.make, Expression.reduced, Expression.mergeTerm,
    Expression.value, Term.value, Relation.violation]

/-- The second number is at least seven, so the first one gets no nearer to four than three. -/
theorem optimal_splitOfTen {x : Variable → Rat} (hx : (reached 10 splitOfTen).Optimal x) :
    x ⟨1⟩ = 3 ∧ x ⟨2⟩ = 7 := by
  have hTotal : -10 + (x ⟨1⟩ + x ⟨2⟩) = 0 := by
    have hHolds := hx.feasible (.make 1 ⟨[⟨⟨1⟩, 1⟩, ⟨⟨2⟩, 1⟩], -10⟩ .equal .required)
      (by decide +kernel) (by decide +kernel)
    simpa [residual, target_splitOfTen, Constraint.make, Expression.reduced, Expression.mergeTerm,
      Expression.value, Term.value, Relation.Holds] using hHolds
  have hSecond : 7 ≤ x ⟨2⟩ := by
    have hHolds := hx.feasible (.make 3 ⟨[⟨⟨2⟩, 1⟩], -7⟩ .greaterOrEqual .required)
      (by decide +kernel) (by decide +kernel)
    simpa [residual, target_splitOfTen, Constraint.make, Expression.reduced, Expression.mergeTerm,
      Expression.value, Term.value, Relation.Holds] using hHolds
  have hReached : (reached 10 splitOfTen).cost (reached 10 splitOfTen).solvedValue = 1000000 := by
    decide +kernel
  have hOk : (withPivotLimit 10 : Solver Rat).RunsThrough splitOfTen := by
    decide +kernel
  obtain ⟨_, hSound⟩ := sound_reached hOk
  have hPinned := pinned_reached hOk (by decide +kernel)
  have hSame := hx.cost_eq (hSound.optimal_solved hPinned)
  rw [cost_splitOfTen, hReached] at hSame
  have hOver := Relation.excess_nonneg (x ⟨1⟩ - 4)
  have hUnder := Relation.excess_sub_excess_neg (x ⟨1⟩ - 4)
  constructor <;> linarith

/-- The first number goes down to two and back to three. -/
theorem round_trip_of_splitOfTen :
    let s := reached 10 splitOfTen
    let after := ((s.addConstraint firstTwo).state.removeConstraint 5).state
    (s.addConstraint firstTwo).state.solvedValue ⟨1⟩ = 2 ∧ s.SameBooks after ∧
      after.cost after.solvedValue = 1000000 ∧ ∀ v, after.solvedValue v = s.solvedValue v := by
  have hTracked : (reached 10 splitOfTen).tracked.records.keys = [⟨1⟩, ⟨2⟩] := by
    decide +kernel
  have hReached : (reached 10 splitOfTen).cost (reached 10 splitOfTen).solvedValue = 1000000 := by
    decide +kernel
  obtain ⟨hBooks, hCost, hValues⟩ := round_trip_of_run 10 splitOfTen (by decide +kernel)
    (by decide +kernel) firstTwo (by decide +kernel) (by decide +kernel)
  refine ⟨by decide +kernel, hBooks, hCost.trans hReached, hValues fun x y hx hy v hv => ?_⟩
  obtain ⟨hFirst, hSecond⟩ := optimal_splitOfTen hx
  obtain ⟨hFirst', hSecond'⟩ := optimal_splitOfTen hy
  rw [VariableTable.isTracked, Registry.contains_eq_true_iff, hTracked] at hv
  simp only [List.mem_cons, List.not_mem_nil, or_false] at hv
  cases hv with
  | inl h => rw [h, hFirst, hFirst']
  | inr h => rw [h, hSecond, hSecond']

end Solver

end SoftSimplex
