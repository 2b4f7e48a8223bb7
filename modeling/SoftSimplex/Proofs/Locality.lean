import SoftSimplex.Proofs.InsertedRow
import SoftSimplex.Proofs.RemoteColumns
import SoftSimplex.Proofs.SolverRuns

/-!
# An operation reaches connected variables only

Two variables are connected if a chain of constraints leads from one to the other. An operation on a
constraint leaves the variables that are not connected to it alone: their values, their symbols, and
which of these symbols are basic.
-/

namespace SoftSimplex
set_option autoImplicit false

open Tableau (Untouched)

theorem VariableTable.Counts.symbol?_eq {table next : VariableTable} {m n : Multiset Variable}
    (h : table.Counts m) (hNext : next.Counts n) (hExtends : table.Extends next) {v : Variable}
    (hv : v ∈ n → v ∈ m) : next.symbol? v = table.symbol? v := by
  cases hSymbol : table.symbol? v with
  | some x => exact hExtends v x hSymbol
  | none =>
    by_contra hTracked
    obtain ⟨x, hx⟩ := Option.ne_none_iff_exists'.mp hTracked
    obtain ⟨r, hRecord, _⟩ := Option.map_eq_some_iff.mp hx
    obtain ⟨y, hy⟩ := h.tracked v (hv (hNext.counted v r hRecord).1)
    cases hSymbol.symm.trans hy

theorem Tableau.complete_of_rows_eq {t u : Tableau Rat} (hRows : u.rows = t.rows) (a : Nat → Rat) :
    u.complete a = t.complete a := by
  funext n
  rw [Tableau.complete, hRows, Tableau.complete]

namespace Solver

variable {issued more : Set Symbol} {s next base added after : Solver Rat} {c : Constraint Rat}
  {row : Row Rat} {tag : Tag} {t u : Tableau Rat} {live : LiveConstraint Rat} {v : Variable}
  {x : Symbol} {R : Set Variable} {edit : Edit Rat} {limit : Nat}

/-- A solver that an operation leaves with the columns of the detached variables as they were. -/
structure Spares (s : Solver Rat) (c : Constraint Rat) (R : Set Variable) (after : Solver Rat) :
    Prop where
  tableau : s.tableau.Untouched (s.remoteColumns c R) after.tableau
  symbols : ∀ v ∈ R, after.tracked.symbol? v = s.tracked.symbol? v

section Addition

variable (h : s.Sound issued) (hDetached : s.Detached c R)
  (hCode : Encoded issued more s s.mentioned c row tag next)

include h in
theorem Sound.new_not_remote (hNew : ∀ y ∈ issued, y.id ≠ x.id) : x.id ∉ s.remoteColumns c R := by
  intro hn
  obtain ⟨y, hy, hId⟩ := h.ledger.exists_remote hn
  exact hNew y hy hId

include h hCode in
theorem Sound.own_not_remote (hx : x ∈ tag.symbols) : x.id ∉ s.remoteColumns c R :=
  h.new_not_remote (hCode.own x hx).2

include h hDetached hCode

/-- The symbol of a variable that the new constraint mentions is an old one of a variable outside, or
it is new. -/
theorem Sound.mentioned_not_remote (hMore : issued ⊆ more) (hv : v ∈ mentions c.expression.terms)
    (hx : next.tracked.symbol? v = some x) : x.id ∉ s.remoteColumns c R := by
  obtain ⟨hIssued, hExternal⟩ := hCode.named.external v x hx
  rintro (⟨w, hw, y, hy, hId⟩ | ⟨l, hl, _, y, hy, hId⟩)
  · have hHeld := hCode.held w y hy
    obtain rfl := hCode.numbered.distinct (hCode.named.external w y hHeld).1 hIssued hId
    obtain rfl := hCode.named.distinct v w y hx hHeld
    exact hDetached.own v hv hw
  · obtain rfl := hCode.numbered.distinct (hMore (h.ledger.columns l hl y hy)) hIssued hId
    cases hExternal.symm.trans ((h.ledger.marks l hl).restricted hy)

/-- The row of the new constraint has no remote column: it would depend on what the constraint does
not mention. -/
theorem Sound.row_not_remote (hMore : issued ⊆ more) :
    row.AllColumns fun y => y.id ∉ s.remoteColumns c R := by
  intro x hx hn
  apply hCode.addable.reduced.coefficient_ne_zero hx
  obtain ⟨σ, _, hEquation, _⟩ := hCode.equation
  have hValue : ∀ a, row.value a = σ * (c.expression.value
      (next.tracked.valuation (s.tableau.complete a)) + tag.balance c (s.tableau.complete a)) := by
    intro a
    rw [← hEquation _ h.rest.regular.solved.satisfies_complete]
    exact (Tableau.value_complete fun b hb y hy => (hCode.addable.columns y hy).2 b hb).symm
  have hSame : ∀ n ∉ s.remoteColumns c R,
      s.tableau.complete (Function.update 0 x.id 1) n = s.tableau.complete 0 n := fun n hn' =>
    h.complete_raised hDetached hn hn'
  have hValuation : ∀ v ∈ mentions c.expression.terms,
      next.tracked.valuation (s.tableau.complete (Function.update 0 x.id 1)) v =
        next.tracked.valuation (s.tableau.complete 0) v := by
    intro v hv
    rw [VariableTable.valuation, VariableTable.valuation]
    cases hSymbol : next.tracked.symbol? v with
    | none => rfl
    | some y => exact hSame _ (h.mentioned_not_remote hDetached hCode hMore hv hSymbol)
  rw [Row.coefficient_eq_value_sub, hValue, hValue, Expression.value_congr hValuation,
    Tag.balance_congr fun y hy => hSame _ (h.own_not_remote hCode hy), sub_self]

theorem Sound.untouched_next : s.tableau.Untouched (s.remoteColumns c R) next.tableau where
  rows := .of_rows_eq hCode.rows
  outside := (h.outside hDetached).of_sameRows (.of_rows_eq hCode.rows)
  objective x hx := by
    have hErrors : tag.errorSum (Function.update (0 : Nat → Rat) x.id 1) =
        tag.errorSum (0 : Nat → Rat) := Tag.errorSum_congr fun y hy => by
      have hOut := h.own_not_remote (R := R) hCode (Tag.mem_symbols_of_mem_errors hy)
      exact Function.update_of_ne (fun hId : y.id = x.id => hOut (hId ▸ hx)) _ _
    rw [Row.coefficient_eq_value_sub, hCode.objective, hCode.objective, hErrors,
      Row.coefficient_eq_value_sub]
    ring
  artificial r hr := by
    rw [hCode.artificial_next h.rest] at hr
    cases hr

theorem Sound.untouched_placed (hMore : issued ⊆ more) (hPlace : Places next row tag base t) :
    s.tableau.Untouched (s.remoteColumns c R) t := by
  have hNext := h.untouched_next hDetached hCode
  have hInside := h.inside hDetached
  have hRow := h.row_not_remote hDetached hCode hMore
  cases hPlace with
  | @basic subject hBasic =>
    obtain ⟨_, hNew⟩ := hCode.subject_new h.rest.regular.solved hBasic
    refine hNext.install hInside hNew ?_ hRow
    cases mem_of_placement hBasic with
    | inl hCell => exact hRow subject hCell
    | inr hOwn => exact h.own_not_remote hCode hOwn
  | phaseOne hPhaseOne hPass =>
    obtain ⟨_, hKinds, _⟩ := hCode.of_phaseOne hPhaseOne
    have hFresh := fresh_slack hCode
    have hOut : next.lastSymbol + 1 ∉ s.remoteColumns c R :=
      h.new_not_remote (x := ⟨.slack, next.lastSymbol + 1⟩) fun y hy => hFresh.new y (hMore hy)
    have hDistinct := hFresh.distinct hCode.numbered.distinct
    have hLasting := h.lasting_untouched hDetached .artificial
      (hMore.trans (Set.subset_insert _ more)) hDistinct
    have hStart := hNext.phaseOneStart (hCode.regular.keys_ne_fresh hFresh) hOut hRow
    obtain ⟨v, hRegular, hPassed, hRetired⟩ := hLasting.insertArtificially hCode.numbered.distinct
      hCode.regular (hCode.orderly_next h.rest) hCode.addable_next hKinds hFresh hStart hPass
    have hQuiet := hPassed.congr (v := { v with artificial := none }) rfl rfl (by simp)
    exact hQuiet.retired hInside (hRegular.mono rfl rfl (by simp)) hOut hRetired

omit hCode in
theorem Sound.spares_added (hAdd : s.insertConstraint c = ⟨.ok tag, added⟩) :
    s.Spares c R added := by
  obtain ⟨more, hMore, hCode⟩ := h.encoded c
  refine ⟨h.lasting_added hAdd (fun most hMost hDistinct =>
    h.lasting_untouched hDetached .primary hMost hDistinct) fun base t hPlace =>
      h.untouched_placed hDetached hCode hMore hPlace, fun v hv => ?_⟩
  rw [(added_eq hAdd).2]
  refine h.ledger.counts.symbol?_eq hCode.counts hCode.held fun hMem => ?_
  exact (Multiset.mem_add.mp hMem).resolve_right fun hOwn => hDetached.own v hOwn hv

end Addition

section Removal

variable {id : Nat} (h : s.Sound issued) (hGet : s.constraints.get? id = some live)
  (hDetached : s.Detached live.constraint R)
include h hGet

theorem Sound.removed_not_remote (hx : x ∈ live.tag.symbols) :
    x.id ∉ s.remoteColumns live.constraint R := by
  intro hn
  exact ((h.ledger.tag_remote_iff (mem_values_of_get? hGet) hx).mp hn).1 rfl

include hDetached

theorem Sound.untouched_forget :
    s.tableau.Untouched (s.remoteColumns live.constraint R) (s.tableau.forget live) where
  rows := .of_rows_eq (h.forgot hGet).rows
  outside := (h.outside hDetached).of_sameRows (.of_rows_eq (h.forgot hGet).rows)
  objective x hx := by
    have hForgot := h.forgot hGet
    have hSolved := h.rest.regular.solved
    have hValue : ∀ a, (s.tableau.forget live).objective.value a = s.tableau.objective.value a -
        live.constraint.strength.value * live.tag.errorSum (s.tableau.complete a) := by
      intro a
      rw [← hForgot.regular.solved.objective_complete, Tableau.complete_of_rows_eq hForgot.rows,
        hForgot.objective _ hSolved.satisfies_complete, hSolved.objective_complete]
      rfl
    have hErrors : live.tag.errorSum (s.tableau.complete (Function.update 0 x.id 1)) =
        live.tag.errorSum (s.tableau.complete 0) := Tag.errorSum_congr fun y hy =>
      h.complete_raised hDetached hx (h.removed_not_remote hGet (Tag.mem_symbols_of_mem_errors hy))
    rw [Row.coefficient_eq_value_sub, hValue, hValue, hErrors, Row.coefficient_eq_value_sub]
    ring
  artificial r hr := by
    rw [(h.forgot hGet).artificial, h.rest.artificial] at hr
    cases hr

theorem Sound.untouched_removed
    (hDrop : (s.tableau.forget live).dropMarker? live.tag.marker = some t)
    (hPass : t.settle limit = ⟨.ok (), u⟩) :
    s.tableau.Untouched (s.remoteColumns live.constraint R) u := by
  have hDistinct := h.ledger.numbered.distinct
  have hDropped := h.dropped hGet hDrop
  have hAfter := (h.untouched_forget hGet hDetached).dropMarker? (h.inside hDetached)
    (h.forgot hGet).regular hDistinct (h.ledger.marker_mem (mem_values_of_get? hGet))
    (h.removed_not_remote hGet live.tag.marker_mem_symbols) hDrop
  exact (h.lasting_untouched hDetached .primary subset_rfl hDistinct).settle hDistinct hDropped.regular
    hDropped.orderly hAfter hPass

theorem Sound.spares_removed (edits : Registry Variable (Edit Rat))
    (hRemove : ({ s with edits } : Solver Rat).removeConstraint id = ⟨.ok (), after⟩) :
    s.Spares live.constraint R after := by
  have hRemoves := ({ s with edits } : Solver Rat).removes id
  rw [hRemove] at hRemoves
  cases hRemoves with
  | @removed found t u hFound hDrop hPass =>
    obtain rfl := Option.some.inj (hGet.symm.trans hFound)
    obtain ⟨dropped, hRelease, _⟩ := release_eq_markAll
      (({ s with edits, constraints := s.constraints.erase id } : Solver Rat).absorb u)
      live.constraint
    rw [hRelease]
    refine ⟨(h.untouched_removed hGet hDetached hDrop hPass).congr rfl rfl fun _ hr => hr, ?_⟩
    intro v hv
    let released : Solver Rat :=
      { s with tracked := s.tracked.releaseAll (mentions live.constraint.expression.terms) }
    have hTracked : released.tracked =
        s.tracked.releaseAll (mentions live.constraint.expression.terms) := rfl
    have hCounts := h.ledger.counts_removed hGet hTracked
    refine (hCounts.symbol?_eq h.ledger.counts VariableTable.extends_releaseAll fun hMem => ?_).symm
    rw [mentioned_without hGet] at hMem
    exact (Multiset.mem_add.mp hMem).resolve_right fun hOwn => hDetached.own v hOwn hv

end Removal

theorem Sound.spares_suggested (h : s.Sound issued) (hEdit : s.edits.get? v = some edit)
    (hDetached : s.Detached edit.constraint R) {y : Rat}
    (hSuggest : s.suggestValue v y = ⟨.ok (), after⟩) : s.Spares edit.constraint R after := by
  have hSuggests := s.suggests v y
  rw [hSuggest] at hSuggests
  cases hSuggests with
  | same _ _ => exact ⟨h.untouched_self hDetached, fun _ _ => rfl⟩
  | @moved found t hFound hPass =>
    obtain rfl := Option.some.inj (hEdit.symm.trans hFound)
    have hLive := (h.ledger.liveEdit hEdit).live
    have hDistinct := h.ledger.numbered.distinct
    obtain ⟨_, _, hMoved, _⟩ := h.shifted hEdit y
    have hShifted := (h.untouched_self hDetached).shiftEdit (h.inside hDetached) h.rest.regular
      hDistinct (fun z hz => ⟨h.ledger.columns _ (mem_values_of_get? hLive) z hz,
        h.removed_not_remote hLive hz⟩) (y - edit.value)
    have hLasting := h.lasting_untouched hDetached .primary subset_rfl hDistinct
    have hAfter := hLasting.dualOptimize hDistinct (hMoved.cells.regular h.rest.regular)
      hMoved.orderly hShifted hPass
    exact ⟨hAfter.congr rfl rfl fun _ hr => hr, fun _ _ => rfl⟩

theorem Sound.spares_registered (h : s.Sound issued) {w : Strength Rat} {id : Nat}
    (hDetached : s.Detached (.make id (.ofVariable v) .equal w) R)
    (hDone : (s.addEditVariable v w id).result = .ok ()) :
    s.Spares (.make id (.ofVariable v) .equal w) R (s.addEditVariable v w id).state := by
  have hRegisters := s.registers v w id
  generalize s.addEditVariable v w id = attempt at hRegisters hDone
  cases hRegisters with
  | registered _ hInsert =>
    have hSpares := h.spares_added hDetached hInsert
    exact ⟨hSpares.tableau, hSpares.symbols⟩
  | refused _ => cases hDone
  | broken _ _ => cases hDone

/-- The constraint of an edit variable is live, so retiring the variable removes it. -/
theorem Sound.spares_retired (h : s.Sound issued) (hEdit : s.edits.get? v = some edit)
    (hDetached : s.Detached edit.constraint R)
    (hDone : (s.removeEditVariable v).result = .ok ()) :
    s.Spares edit.constraint R (s.removeEditVariable v).state := by
  have hLive := (h.ledger.liveEdit hEdit).live
  have hRetires := s.retires v
  generalize s.removeEditVariable v = attempt at hRetires hDone
  cases hRetires with
  | unknown _ => cases hDone
  | @forgotten found next hFound hRemoval =>
    obtain rfl := Option.some.inj (hEdit.symm.trans hFound)
    have hRemoves :=
      ({ s with edits := s.edits.erase v } : Solver Rat).removes edit.constraint.id
    rw [hRemoval] at hRemoves
    cases hRemoves with
    | unknown hMissing => cases hLive.symm.trans hMissing
  | @removed found attempt hFound hRemoval _ =>
    obtain rfl := Option.some.inj (hEdit.symm.trans hFound)
    exact h.spares_removed hLive hDetached (s.edits.erase v)
      (hRemoval.trans (congrArg (Attempt.mk · attempt.state) hDone))

/-- The constraint that an operation is about. -/
inductive Concerns (s : Solver Rat) : Operation Rat → Constraint Rat → Prop where
  | addition (c : Constraint Rat) : Concerns s (.addConstraint c) c
  | removal {id : Nat} {live : LiveConstraint Rat} (found : s.constraints.get? id = some live) :
      Concerns s (.removeConstraint id) live.constraint
  | registration (v : Variable) (w : Strength Rat) (id : Nat) :
      Concerns s (.addEditVariable v w id) (.make id (.ofVariable v) .equal w)
  | retirement {v : Variable} {edit : Edit Rat} (found : s.edits.get? v = some edit) :
      Concerns s (.removeEditVariable v) edit.constraint
  | suggestion {v : Variable} {edit : Edit Rat} (x : Rat) (found : s.edits.get? v = some edit) :
      Concerns s (.suggestValue v x) edit.constraint

theorem Sound.spares_performed {op : Operation Rat} (h : s.Sound issued) (hConcerns : s.Concerns op c)
    (hDetached : s.Detached c R) (hDone : (s.perform op).1.result = .ok ()) :
    s.Spares c R (s.perform op).2 := by
  cases hConcerns with
  | addition =>
    obtain ⟨tag, hInsert⟩ := insertConstraint_of_added hDone
    exact h.spares_added hDetached hInsert
  | @removal id live hFound =>
    exact h.spares_removed hFound hDetached s.edits
      (congrArg (Attempt.mk · (s.removeConstraint id).state) hDone)
  | registration v w id => exact h.spares_registered hDetached hDone
  | retirement hFound => exact h.spares_retired hFound hDetached hDone
  | @suggestion v edit x hFound =>
    exact h.spares_suggested hFound hDetached
      (congrArg (Attempt.mk · (s.suggestValue v x).state) hDone)

section Spares

variable (h : s.Spares c R after) (hv : v ∈ R)
include h hv

theorem Spares.mem_keys_iff (hx : s.tracked.symbol? v = some x) :
    x ∈ after.tableau.rows.keys ↔ x ∈ s.tableau.rows.keys :=
  h.tableau.rows.mem_keys_iff (.inl ⟨v, hv, x, hx, rfl⟩)

theorem Spares.solvedValue_eq : after.solvedValue v = s.solvedValue v := by
  have hSymbols := h.symbols v hv
  cases hSymbol : s.tracked.symbol? v with
  | some x =>
    rw [hSymbol] at hSymbols
    rw [solvedValue_of_symbol? hSymbol, solvedValue_of_symbol? hSymbols]
    exact h.tableau.rows.value_eq (.inl ⟨v, hv, x, hSymbol, rfl⟩)
  | none =>
    rw [hSymbol] at hSymbols
    rw [solvedValue_of_untracked hSymbol, solvedValue_of_untracked hSymbols]

end Spares

/-- One of some constraints mentions both variables. -/
def Linked (cs : List (Constraint Rat)) (v w : Variable) : Prop :=
  ∃ c ∈ cs, v ∈ mentions c.expression.terms ∧ w ∈ mentions c.expression.terms

/-- A chain of constraints, each with a variable of the next, leads from one variable to the other. -/
def Connected (cs : List (Constraint Rat)) : Variable → Variable → Prop :=
  Relation.TransGen (Linked cs)

theorem Connected.eq_of_alone {cs : List (Constraint Rat)} {w : Variable}
    (hAlone : ∀ c ∈ cs, v ∈ mentions c.expression.terms →
      ∀ w ∈ mentions c.expression.terms, w = v)
    (h : Connected cs v w) : w = v := by
  induction h with
  | single hLinked =>
    obtain ⟨c, hc, hv, hw⟩ := hLinked
    exact hAlone c hc hv _ hw
  | tail _ hLinked ih =>
    obtain ⟨c, hc, hMiddle, hw⟩ := hLinked
    exact hAlone c hc (ih ▸ hMiddle) _ hw

/-- The variables that are not connected to a constraint are detached from it. -/
theorem detached_of_not_connected (s : Solver Rat) (c : Constraint Rat) :
    s.Detached c {v | ∀ w ∈ mentions c.expression.terms,
      ¬ Connected (c :: s.constraintList) v w} where
  own v hv hFar := hFar v hv (.single ⟨c, List.mem_cons_self, hv, hv⟩)
  others l hl v hv w hw hFar u hu hConnected := by
    have hLinked : Linked (c :: s.constraintList) v w :=
      ⟨l.constraint, List.mem_cons_of_mem _ (List.mem_map.mpr ⟨l, hl, rfl⟩), hv, hw⟩
    exact hFar u hu (.head hLinked hConnected)

/-- After every run without a breakdown, an operation on a constraint that succeeds leaves each variable
that is not connected to the constraint with its value and its symbol, and this symbol is basic exactly
if it was before. -/
theorem unconnected_unchanged_of_run (limit : Nat) (ops : List (Operation Rat))
    (hOk : (withPivotLimit limit : Solver Rat).RunsThrough ops) (op : Operation Rat)
    (c : Constraint Rat) (hConcerns : (reached limit ops).Concerns op c)
    (hDone : ((reached limit ops).perform op).1.result = .ok ()) (v : Variable)
    (hFar : ∀ w ∈ mentions c.expression.terms,
      ¬ Connected (c :: (reached limit ops).constraintList) v w) :
    let s := reached limit ops
    let after := (s.perform op).2
    after.solvedValue v = s.solvedValue v ∧ after.tracked.symbol? v = s.tracked.symbol? v ∧
      ∀ x, s.tracked.symbol? v = some x →
        (x ∈ after.tableau.rows.keys ↔ x ∈ s.tableau.rows.keys) := by
  obtain ⟨issued, hSound⟩ := sound_reached hOk
  have hDetached := detached_of_not_connected (reached limit ops) c
  have hSpares := hSound.spares_performed hConcerns hDetached hDone
  exact ⟨hSpares.solvedValue_eq hFar, hSpares.symbols v hFar, fun _ hx =>
    hSpares.mem_keys_iff hFar hx⟩

/-- The split of ten, and a third number that is to be eight. -/
def splitBesideEight : List (Operation Rat) :=
  splitOfTen ++ [.addConstraint (.make 5 ⟨[⟨⟨3⟩, 1⟩], -8⟩ .equal .medium)]

/-- That the first number be two moves the split, and the third number stays eight. -/
theorem unconnected_unchanged_of_splitBesideEight :
    let s := reached 10 splitBesideEight
    let after := (s.perform (.addConstraint (.make 6 ⟨[⟨⟨1⟩, 1⟩], -2⟩ .equal .required))).2
    s.solvedValue ⟨1⟩ = 3 ∧ after.solvedValue ⟨1⟩ = 2 ∧ s.solvedValue ⟨3⟩ = 8 ∧
      after.solvedValue ⟨3⟩ = s.solvedValue ⟨3⟩ := by
  refine ⟨by decide +kernel, by decide +kernel, by decide +kernel, ?_⟩
  refine (unconnected_unchanged_of_run 10 splitBesideEight (by decide +kernel) _ _
    (.addition (.make 6 ⟨[⟨⟨1⟩, 1⟩], -2⟩ .equal .required)) (by decide +kernel) ⟨3⟩ ?_).1
  intro w hw hConnected
  have hFirst : w = ⟨1⟩ := by
    clear hConnected
    revert w
    decide +kernel
  have hThird : w = ⟨3⟩ := hConnected.eq_of_alone (by decide +kernel)
  cases hFirst.symm.trans hThird

end Solver

end SoftSimplex
