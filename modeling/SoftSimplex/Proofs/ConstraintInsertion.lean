import SoftSimplex.Proofs.PlacementChoice
import SoftSimplex.Solver.Insertion

/-!
# Adding a constraint keeps the invariant

Once the row of a new constraint is placed, the tableau says what it said before and what the
constraint says, and it can be settled. A refused constraint is required, and no admissible solution
of the tableau makes its row zero; what its encoding has done is taken back.
-/

namespace SoftSimplex
set_option autoImplicit false

open Tableau (Placed Admissible Fresh)

namespace Solver

variable {issued more : Set Symbol} {s next : Solver Rat} {c : Constraint Rat} {row : Row Rat}
  {tag : Tag} {t u : Tableau Rat} {l : LiveConstraint Rat} {a : Nat → Rat}

def register (s : Solver Rat) (c : Constraint Rat) (tag : Tag) : Solver Rat :=
  { s with constraints := s.constraints.insert c.id ⟨c, tag⟩ }

theorem Ledger.grow (h : s.Ledger issued) {x : Symbol} (hId : x.id = s.lastSymbol + 1)
    (hValid : x.isInvalid = false) :
    ({ s with lastSymbol := s.lastSymbol + 1 } : Solver Rat).Ledger (insert x issued) where
  numbered := h.numbered.insert (by omega) hId.le hValid
  named := h.named.mono (Set.subset_insert _ _)
  counts := h.counts
  keys := h.keys
  marks := h.marks
  columns l hl y hy := .inr (h.columns l hl y hy)
  apart := h.apart
  edits := h.edits

section Encoded

variable (hCode : Encoded issued more s s.mentioned c row tag next)
include hCode

theorem values_register (hNew : s.constraints.get? c.id = none) :
    (next.register c tag).constraints.values = s.constraints.values ++ [⟨c, tag⟩] := by
  rw [register, hCode.constraints]
  exact Registry.values_insert hNew

theorem equation_register (h : s.Ledger issued) (hl : l ∈ s.constraints.values) :
    (next.register c tag).equation l a = s.equation l a :=
  equation_congr (target_congr (s := s) hCode.edits _) fun _ hv =>
    hCode.held.valuation h.counts (mem_mentioned hl hv)

variable (h : s.Sound issued) (hMore : issued ⊆ more) (hNew : s.constraints.get? c.id = none)
include h hMore hNew

theorem ledger_register : (next.register c tag).Ledger more := by
  have hValues := values_register hCode hNew
  have hConstraints : (next.register c tag).constraints = s.constraints.insert c.id ⟨c, tag⟩ := by
    rw [register, hCode.constraints]
  have hMentioned : (next.register c tag).mentioned = s.mentioned + mentions c.expression.terms := by
    rw [mentioned, hValues, List.map_append, List.sum_append, List.map_singleton,
      List.sum_singleton, mentioned]
  constructor
  case numbered => exact hCode.numbered
  case named => exact hCode.named
  case counts =>
    rw [hMentioned]
    exact hCode.counts
  case keys =>
    rw [hConstraints]
    intro e he
    rcases Registry.mem_insert_iff.mp he with rfl | ⟨he, _⟩
    · rfl
    · exact h.ledger.keys e he
  case marks =>
    rw [hValues, List.forall_mem_append, List.forall_mem_singleton]
    exact ⟨h.ledger.marks, hCode.marks⟩
  case columns =>
    rw [hValues, List.forall_mem_append, List.forall_mem_singleton]
    exact ⟨fun l hl y hy => hMore (h.ledger.columns l hl y hy), fun y hy => (hCode.own y hy).1⟩
  case apart =>
    rw [hValues]
    refine List.pairwise_append.mpr ⟨h.ledger.apart, List.pairwise_singleton _ _, ?_⟩
    intro l hl k hk y hy z hz
    obtain rfl := List.mem_singleton.mp hk
    exact (hCode.own z hz).2 y (h.ledger.columns l hl y hy)
  case edits =>
    intro e he
    have hEdit := h.ledger.edits e (hCode.edits ▸ he)
    refine ⟨?_, hEdit.optional, hEdit.equal, hEdit.terms⟩
    rw [hConstraints, Registry.get?_insert, if_neg]
    · exact hEdit.live
    · intro hId
      have hLive := hEdit.live
      rw [← hId, hNew] at hLive
      cases hLive

omit hMore in
theorem equation_register_self (a : Nat → Rat) : (next.register c tag).equation ⟨c, tag⟩ a =
    c.expression.value (next.tracked.valuation a) + tag.balance c a := by
  have hTarget : (next.register c tag).target c.id = 0 :=
    (target_congr (s := s) hCode.edits _).trans (h.ledger.target_of_not_live hNew)
  rw [equation, residual, hTarget, sub_zero]
  rfl

omit hMore in
/-- With its row absorbed, the tableau says what the new constraint says. -/
theorem represents_register (hAbsorbs : next.tableau.Absorbs u row) :
    (next.register c tag).Represents u := by
  have hValues := values_register hCode hNew
  obtain ⟨σ, hσ, hValue, _⟩ := hCode.equation
  have hSign : σ ≠ 0 := by
    rcases hσ with rfl | rfl <;> norm_num
  refine ⟨fun a => ?_, ?_, ?_⟩
  · rw [hAbsorbs.rows, hCode.satisfies_iff, hValues, List.forall_mem_append,
      forall_congr' fun l => forall_congr' fun hl => by
        rw [equation_register hCode h.ledger hl], ← h.meaning.rows]
    refine and_congr_right fun hSat => ?_
    rw [List.forall_mem_singleton, equation_register_self hCode h hNew, hValue a hSat, mul_eq_zero,
      or_iff_right hSign]
  · rw [hAbsorbs.size, hValues, List.length_append, hCode.rows, h.meaning.size]
    rfl
  · obtain ⟨k, hk⟩ := h.meaning.objective
    refine ⟨k, fun a hSat => ?_⟩
    rw [hAbsorbs.objective a hSat, hCode.objective,
      hk a (hCode.satisfies_iff.mp ((hAbsorbs.rows a).mp hSat).1), errorCost, errorCost, hValues,
      List.map_append, List.sum_append, List.map_singleton, List.sum_singleton, add_assoc]

end Encoded

/-- How adding a constraint ends if its row is placed and no pass breaks down. -/
structure Accepted (issued : Set Symbol) (s : Solver Rat) (c : Constraint Rat) (tag : Tag)
    (after : Solver Rat) : Prop where
  sound : after.Sound issued
  constraints : after.constraints = s.constraints.insert c.id ⟨c, tag⟩
  edits : after.edits = s.edits
  pinned : s.tableau.Pinned → after.tableau.Pinned

theorem accept_cases (hDistinct : Set.InjOn Symbol.id issued)
    (hPlaced : Placed issued s.tableau t row) (hLedger : (s.register c tag).Ledger issued)
    (hMeaning : (s.register c tag).Represents t) :
    (∃ cause, ((s.absorb t).accept c tag).result = .error (.breakdown cause)) ∨
      (((s.absorb t).accept c tag).result = .ok tag ∧
        Accepted issued s c tag ((s.absorb t).accept c tag).state) := by
  rw [accept]
  dsimp only
  split
  · rename_i v hSettle
    refine .inr ⟨rfl, ?_⟩
    have hSettled := Tableau.settle_settles (t := { t with touched := [] }) hDistinct
      (hPlaced.regular.mono rfl rfl fun _ hr => hr) hPlaced.orderly (hPlaced.feasible.mono rfl)
      hSettle
    have hBooks : ((s.absorb t).register c tag).Ledger issued := hLedger.congr rfl rfl rfl rfl
    have hSame : t.SameMeaning { t with touched := [] } :=
      ⟨fun _ => Iff.rfl, fun _ _ => rfl, fun _ _ => rfl, rfl⟩
    have hSays : ((s.absorb t).register c tag).Represents { t with touched := [] } :=
      (hMeaning.of_sameMeaning hSame).congr rfl rfl rfl
    exact ⟨sound_absorb hBooks hSays hSettled hPlaced.artificial, rfl, rfl, fun hPinned =>
      (hSettled.pinned ((hPlaced.pinned hPinned).mono rfl)).mono rfl⟩
  · exact .inl ⟨_, rfl⟩

/-- How a constraint is refused. -/
structure Refused (issued : Set Symbol) (s : Solver Rat) (c : Constraint Rat)
    (after : Solver Rat) : Prop where
  sound : after.Sound issued
  constraints : after.constraints = s.constraints
  edits : after.edits = s.edits
  pinned : s.tableau.Pinned → after.tableau.Pinned

theorem discard_eq (s : Solver Rat) (c : Constraint Rat) (tag : Tag) (hErrors : tag.errors = []) :
    ∃ changes, s.discard c tag =
      { s with tracked := s.tracked.releaseAll (mentions c.expression.terms), changes } := by
  have hSame : { s with tableau := { s.tableau with
      objective := tag.errors.foldl Row.remove s.tableau.objective } } = s := by
    rw [hErrors]
    rfl
  obtain ⟨dropped, hRelease, _⟩ := release_eq_markAll s c
  rw [discard, hSame]
  exact ⟨_, hRelease⟩

section Discard

variable {wide : Set Symbol} {after : Solver Rat} (h : s.Sound issued)
  (hCode : Encoded issued more s s.mentioned c row tag next) (hMore : issued ⊆ more)
  (hWide : more ⊆ wide)
include h hCode hMore hWide

/-- Giving the references back leaves the books as they were before the encoding. -/
theorem refused_of_released (hNumbered : Numbered wide after.lastSymbol)
    (hTracked : after.tracked = next.tracked.releaseAll (mentions c.expression.terms))
    (hConstraints : after.constraints = s.constraints) (hEdits : after.edits = s.edits)
    (hRows : after.tableau.rows = s.tableau.rows)
    (hObjective : after.tableau.objective = s.tableau.objective)
    (hQueue : after.tableau.infeasible = s.tableau.infeasible)
    (hArtificial : after.tableau.artificial = s.tableau.artificial) : Refused wide s c after := by
  have hCounts := hCode.counts.releaseAll
  have hHeld : (next.tracked.releaseAll (mentions c.expression.terms)).Extends next.tracked :=
    VariableTable.extends_releaseAll
  have hMentioned : after.mentioned = s.mentioned := by
    rw [mentioned, hConstraints, mentioned]
  have hEquation : ∀ l ∈ s.constraints.values, ∀ a, after.equation l a = s.equation l a := by
    intro l hl a
    refine equation_congr (target_congr hEdits _) fun v hv => ?_
    rw [hTracked, ← hHeld.valuation hCounts (mem_mentioned hl hv)]
    exact hCode.held.valuation h.ledger.counts (mem_mentioned hl hv)
  have hBooks : after.Ledger wide := by
    constructor
    case numbered => exact hNumbered
    case named =>
      rw [hTracked]
      exact (hCode.named.of_extends hHeld).mono hWide
    case counts =>
      rw [hTracked, hMentioned]
      exact hCounts
    case keys => exact hConstraints ▸ h.ledger.keys
    case marks => exact hConstraints ▸ h.ledger.marks
    case columns =>
      rw [hConstraints]
      exact fun l hl y hy => hWide (hMore (h.ledger.columns l hl y hy))
    case apart => exact hConstraints ▸ h.ledger.apart
    case edits =>
      rw [hConstraints, hEdits]
      exact h.ledger.edits
  exact ⟨⟨hBooks, h.rest.congr (hMore.trans hWide) hRows hObjective hQueue hArtificial,
    h.meaning.of_equations hConstraints hEquation hRows hObjective⟩,
    hConstraints, hEdits, fun hPinned => hPinned.mono hRows⟩

end Discard

/-- Why a constraint is refused: with the dummies at zero, its row is zero at no admissible solution
of the tableau. -/
def Impossible (issued : Set Symbol) (s : Solver Rat) (c : Constraint Rat) : Prop :=
  ∃ more row tag next, issued ⊆ more ∧ Encoded issued more s s.mentioned c row tag next ∧
    ∀ a, s.tableau.Satisfies a → Admissible more a → row.value a ≠ 0

/-- The ways in which adding a constraint can end. -/
inductive Insertion (issued : Set Symbol) (s : Solver Rat) (c : Constraint Rat)
    (a : Attempt SolverError Tag (Solver Rat)) : Prop where
  | duplicate (live : s.hasConstraint c.id = true) (result : a.result = .error .duplicateConstraint)
      (state : a.state = s)
  | broken (cause : Breakdown) (result : a.result = .error (.breakdown cause))
  | accepted (new : s.hasConstraint c.id = false) (more : Set Symbol) (tag : Tag)
      (result : a.result = .ok tag) (accepted : Accepted more s c tag a.state)
  | refused (new : s.hasConstraint c.id = false) (more : Set Symbol)
      (result : a.result = .error .unsatisfiableConstraint) (required : c.isRequired = true)
      (refused : Refused more s c a.state) (impossible : s.tableau.Pinned → Impossible issued s c)

theorem Accepted.of_next {before : Solver Rat} {a : Solver Rat} (h : Accepted issued before c tag a)
    (hConstraints : before.constraints = s.constraints) (hEdits : before.edits = s.edits)
    (hRows : before.tableau.rows = s.tableau.rows) : Accepted issued s c tag a where
  sound := h.sound
  constraints := by rw [h.constraints, hConstraints]
  edits := h.edits.trans hEdits
  pinned hPinned := h.pinned (hPinned.mono hRows)

section Cases

variable (h : s.Sound issued) (hNew : s.hasConstraint c.id = false) (hMore : issued ⊆ more)
  (hCode : Encoded issued more s s.mentioned c row tag next)
include h hNew hMore hCode

theorem insertion_of_basic {x : Symbol} (hBasic : Placement.of row tag = .basic x) :
    Insertion issued s c ((next.absorb (next.tableau.install row x)).accept c tag) := by
  have hGet := get?_of_not_hasConstraint hNew
  have hPlaced := hCode.placed_install h.rest hBasic
  rcases accept_cases hCode.numbered.distinct hPlaced (ledger_register hCode h hMore hGet)
    (represents_register hCode h hGet hPlaced.absorbs) with ⟨cause, hBroken⟩ | ⟨hOk, hAccepted⟩
  · exact .broken cause hBroken
  · exact .accepted hNew more tag hOk
      (hAccepted.of_next hCode.constraints hCode.edits hCode.rows)

theorem insertion_of_contradiction (hPlacement : Placement.of row tag = .contradiction) :
    Insertion issued s c (.failed .unsatisfiableConstraint (next.discard c tag)) := by
  obtain ⟨hRequired, hNonzero⟩ := hCode.ne_zero_of_contradiction hPlacement
  have hErrors := hCode.marks.errors_of_required hRequired
  refine .refused hNew more rfl hRequired ?_ fun _ =>
    ⟨more, row, tag, next, hMore, hCode, fun a _ ha => hNonzero a ha⟩
  obtain ⟨changes, hAfter⟩ := discard_eq next c tag hErrors
  rw [Attempt.failed, hAfter]
  exact refused_of_released h hCode hMore subset_rfl hCode.numbered rfl hCode.constraints
    hCode.edits hCode.rows (hCode.objective_of_no_error hErrors) hCode.queue hCode.artificial

section PhaseOne

variable {limit : Nat} (hRequired : c.isRequired = true)
  (hKinds : row.AllColumns fun y => y.isExternal = false)

omit h hNew hMore in
theorem fresh_slack : Fresh more ⟨.slack, next.lastSymbol + 1⟩ := by
  refine ⟨rfl, fun y hy => ?_⟩
  have hBound := hCode.numbered.bound y hy
  dsimp only
  omega

include hKinds in
theorem insertion_of_satisfied {j : Symbol} (hj : j ∈ row.cells.keys)
    (hOk : next.tableau.insertArtificially limit ⟨.slack, next.lastSymbol + 1⟩ row = ⟨.ok true, t⟩) :
    Insertion issued s c
      ((absorb { next with lastSymbol := next.lastSymbol + 1 } t).accept c tag) := by
  have hGet := get?_of_not_hasConstraint hNew
  have hFresh := fresh_slack hCode
  have hPlaced := hCode.regular.placed_of_insertArtificially hCode.numbered.distinct
    (hCode.orderly_next h.rest) (hCode.feasible_next h.rest) hCode.addable_next hKinds hCode.nonneg
    hFresh hj hOk
  have hBooks := (ledger_register hCode h hMore hGet).grow
    (x := ⟨.slack, next.lastSymbol + 1⟩) rfl rfl
  have hSays := represents_register hCode h hGet hPlaced.absorbs
  rcases accept_cases (s := { next with lastSymbol := next.lastSymbol + 1 })
    (hFresh.distinct hCode.numbered.distinct) hPlaced (hBooks.congr rfl rfl rfl rfl)
    (hSays.congr rfl rfl rfl) with ⟨cause, hBroken⟩ | ⟨hAccept, hAccepted⟩
  · exact .broken cause hBroken
  · exact .accepted hNew _ tag hAccept
      (hAccepted.of_next hCode.constraints hCode.edits hCode.rows)

include hRequired hKinds in
theorem insertion_of_unsatisfied {j : Symbol} (hj : j ∈ row.cells.keys) (hKind : j.isDummy = false)
    (hOk : next.tableau.insertArtificially limit ⟨.slack, next.lastSymbol + 1⟩ row = ⟨.ok false, t⟩) :
    Insertion issued s c (.failed .unsatisfiableConstraint
      ((rollBack { next with lastSymbol := next.lastSymbol + 1 } t).discard c tag)) := by
  have hErrors := hCode.marks.errors_of_required hRequired
  refine .refused hNew (insert ⟨.slack, next.lastSymbol + 1⟩ more) rfl hRequired ?_
    fun hPinned => ⟨more, row, tag, next, hMore, hCode, fun a hSat ha => ?_⟩
  · obtain ⟨changes, hAfter⟩ := discard_eq
      (rollBack { next with lastSymbol := next.lastSymbol + 1 } t) c tag hErrors
    rw [Attempt.failed, hAfter]
    exact refused_of_released h hCode hMore (Set.subset_insert _ _)
      (hCode.numbered.insert (Nat.lt_succ_self _) le_rfl rfl) rfl hCode.constraints
      hCode.edits hCode.rows (hCode.objective_of_no_error hErrors) hCode.queue
      h.rest.artificial.symm
  · exact hCode.regular.ne_zero_of_insertArtificially hCode.numbered.distinct
      (hCode.orderly_next h.rest) (hCode.feasible_next h.rest) hCode.addable_next hKinds
      hCode.nonneg (fresh_slack hCode) (hPinned.mono hCode.rows) hCode.numbered.valid hj hKind hOk
      (hCode.satisfies_iff.mpr hSat) ha

end PhaseOne

theorem insertion_of_phaseOne (hPlacement : Placement.of row tag = .phaseOne) :
    Insertion issued s c (next.insertByPhaseOne c tag row) := by
  obtain ⟨hRequired, hKinds, j, hj, hKind⟩ := hCode.of_phaseOne hPlacement
  rw [insertByPhaseOne]
  dsimp only
  split
  · rename_i t hOk
    exact insertion_of_satisfied h hNew hMore hCode hKinds hj hOk
  · rename_i t hOk
    exact insertion_of_unsatisfied h hNew hMore hCode hRequired hKinds hj hKind hOk
  · rename_i cause t _
    exact .broken cause rfl

end Cases

theorem Sound.insertion (h : s.Sound issued) (c : Constraint Rat) :
    Insertion issued s c (s.insertConstraint c) := by
  rw [insertConstraint]
  split
  · rename_i hLive
    exact .duplicate hLive rfl rfl
  · rename_i hNew
    have hNew : s.hasConstraint c.id = false := by simpa using hNew
    obtain ⟨more, hMore, hCode⟩ := encoded_encode h.ledger.numbered h.ledger.named h.ledger.counts
      h.rest.regular c
    dsimp only
    split
    · rename_i subject hBasic
      exact insertion_of_basic h hNew hMore hCode hBasic
    · rename_i hContradiction
      exact insertion_of_contradiction h hNew hMore hCode hContradiction
    · rename_i hPhaseOne
      exact insertion_of_phaseOne h hNew hMore hCode hPhaseOne

end Solver

end SoftSimplex
