import SoftSimplex.Proofs.MarkerDrop
import SoftSimplex.Proofs.SolverInvariant

/-!
# Removing a constraint keeps the invariant

Forgetting the weight of a constraint leaves the objective with the errors of the others. The marker
is a column of this constraint alone and can take any value, so dropping it leaves exactly what the
others say.
-/

namespace SoftSimplex
set_option autoImplicit false

namespace Tableau

variable {issued : Set Symbol} {t u : Tableau Rat} {a : Nat → Rat} {w : Rat} {x : Symbol}

/-- What forgetting the weight of some errors does. -/
structure Forgot (issued : Set Symbol) (t u : Tableau Rat) (w : Rat) (errors : List Symbol) :
    Prop where
  regular : u.Regular issued
  rows : u.rows = t.rows
  queue : u.infeasible = t.infeasible
  artificial : u.artificial = t.artificial
  objective : ∀ a, t.Satisfies a →
    u.objective.value a = t.objective.value a - w * (errors.map fun x => a x.id).sum

theorem Regular.unweigh (h : t.Regular issued) (hDistinct : Set.InjOn Symbol.id issued)
    (hx : x ∈ issued) (hKind : x.isExternal = false) (w : Rat) :
    (t.unweigh w x).Regular issued := by
  rw [unweigh_eq]
  have hColumns : (termRow t.rows t.objective x (-w)).AllColumns fun c =>
      c ∈ issued ∧ ∀ b ∈ t.rows.keys, c.id ≠ b.id :=
    columns_termRow h.solved hx fun c hc =>
      ⟨h.solved.columns.objective c hc, fun b hb => (h.solved.nonbasic b hb).objective c hc⟩
  refine ⟨⟨h.solved.keys, ⟨h.solved.columns.rows, hColumns.imp fun _ hc => hc.1,
    h.solved.columns.artificial⟩, fun b hb => ⟨(h.solved.nonbasic b hb).rows,
      hColumns.imp fun _ hc => hc.2 b hb, (h.solved.nonbasic b hb).artificial⟩⟩,
    ⟨h.reduced.rows, reduced_termRow h.reduced.objective, h.reduced.artificial⟩,
    ⟨h.separate.rows, ?_, h.separate.artificial⟩⟩
  rw [termRow]
  split
  · rename_i basic hGet
    exact h.separate.objective.addRow
      (h.separate.rows _ (h.solved.mem_of_get? hDistinct hx hGet) hKind)
  · exact h.separate.objective.addSymbol hKind

theorem Regular.forgot (h : t.Regular issued) (hDistinct : Set.InjOn Symbol.id issued)
    {errors : List Symbol} (hErrors : ∀ x ∈ errors, x ∈ issued ∧ x.isExternal = false) (w : Rat) :
    Forgot issued t (errors.foldl (fun t x => t.unweigh w x) t) w errors := by
  induction errors generalizing t with
  | nil => exact ⟨h, rfl, rfl, rfl, fun a _ => by simp⟩
  | cons x rest ih =>
    obtain ⟨hx, hKind⟩ := hErrors x List.mem_cons_self
    have hStep := ih (h.unweigh hDistinct hx hKind w) fun y hy =>
      hErrors y (List.mem_cons_of_mem _ hy)
    have hRows : (t.unweigh w x).rows = t.rows := by rw [unweigh_eq]
    refine ⟨hStep.regular, hStep.rows.trans hRows, hStep.queue.trans ?_,
      hStep.artificial.trans ?_, fun a hSat => ?_⟩
    · rw [unweigh_eq]
    · rw [unweigh_eq]
    · have hFirst : (t.unweigh w x).objective.value a = t.objective.value a + -w * a x.id := by
        rw [unweigh_eq]
        exact value_termRow hSat _ _ _
      have hSat : (t.unweigh w x).Satisfies a := by
        rw [Satisfies, hRows]
        exact hSat
      have hRest := hStep.objective a hSat
      rw [hFirst] at hRest
      rw [List.foldl_cons, hRest, List.map_cons, List.sum_cons]
      ring

theorem loosens_congr {marker : Symbol} (hRows : u.rows = t.rows) :
    u.Loosens marker ↔ t.Loosens marker := by
  cases t
  cases u
  subst hRows
  exact Iff.rfl

theorem displaces_congr {marker : Symbol} (hRows : u.rows = t.rows) :
    u.Displaces marker ↔ t.Displaces marker := by
  cases t
  cases u
  subst hRows
  exact Iff.rfl

end Tableau

namespace Solver

variable {issued : Set Symbol} {s : Solver Rat} {live l : LiveConstraint Rat} {id : Nat}
  {t u : Tableau Rat} {a : Nat → Rat}

/-- The solver without one constraint, everything else as it was. -/
def withoutConstraint (s : Solver Rat) (id : Nat) : Solver Rat :=
  { s with constraints := s.constraints.erase id }

section Without

variable (h : s.Ledger issued) (hGet : s.constraints.get? id = some live)

include hGet in
theorem mem_values_of_get? : live ∈ s.constraints.values :=
  Registry.mem_values_iff.mpr ⟨id, Registry.get?_eq_some_iff.mp hGet⟩

include hGet in
theorem mem_values_of_without (hl : l ∈ (s.withoutConstraint id).constraints.values) :
    l ∈ s.constraints.values :=
  (Registry.values_perm_erase hGet).mem_iff.mpr (List.mem_cons_of_mem _ hl)

include h hGet in
theorem Ledger.id_eq : live.constraint.id = id :=
  h.keys _ (Registry.get?_eq_some_iff.mp hGet)

include h in
theorem Ledger.id_ne_of_without (hl : l ∈ (s.withoutConstraint id).constraints.values) :
    l.constraint.id ≠ id := by
  obtain ⟨k, hk⟩ := Registry.mem_values_iff.mp hl
  obtain ⟨hMem, hne⟩ := Registry.mem_erase_iff.mp hk
  rwa [h.keys _ hMem]

include h hGet in
theorem Ledger.apart_without : (∀ l ∈ (s.withoutConstraint id).constraints.values, live.Apart l) ∧
    (s.withoutConstraint id).constraints.values.Pairwise LiveConstraint.Apart :=
  List.pairwise_cons.mp (h.apart.perm (Registry.values_perm_erase hGet) fun hApart =>
    Std.Symm.symm _ _ hApart)

include hGet in
theorem mentioned_without : s.mentioned =
    (s.withoutConstraint id).mentioned + mentions live.constraint.expression.terms := by
  have hPerm := (Registry.values_perm_erase hGet).map fun l : LiveConstraint Rat =>
    (mentions l.constraint.expression.terms : Multiset Variable)
  rw [mentioned, hPerm.sum_eq, List.map_cons, List.sum_cons, add_comm]
  rfl

include hGet in
theorem errorCost_without : s.errorCost a =
    live.constraint.strength.value * live.tag.errorSum a + (s.withoutConstraint id).errorCost a := by
  have hPerm := (Registry.values_perm_erase hGet).map fun l : LiveConstraint Rat =>
    l.constraint.strength.value * l.tag.errorSum a
  rw [errorCost, hPerm.sum_eq, List.map_cons, List.sum_cons]
  rfl

include h hGet in
theorem Ledger.equation_update (hl : l ∈ (s.withoutConstraint id).constraints.values) (x : Rat) :
    s.equation l (Function.update a live.tag.marker.id x) = s.equation l a := by
  have hLive := mem_values_of_get? hGet
  have hMarker := live.tag.marker_mem_symbols
  exact h.equation_update_of_ne (h.columns live hLive _ hMarker)
    ((h.marks live hLive).restricted hMarker)
    (fun y hy => ((h.apart_without hGet).1 l hl _ hMarker y hy).symm) x

include h hGet in
theorem Ledger.errorCost_congr {b : Nat → Rat}
    (hSame : ∀ x ∈ issued, x.isExternal = false → x.id ≠ live.tag.marker.id → a x.id = b x.id) :
    (s.withoutConstraint id).errorCost a = (s.withoutConstraint id).errorCost b := by
  refine congrArg List.sum (List.map_congr_left fun l hl => ?_)
  have hl' := mem_values_of_without hGet hl
  rw [Tag.errorSum_congr fun y hy => ?_]
  have hOwn := Tag.mem_symbols_of_mem_errors hy
  exact hSame y (h.columns l hl' y hOwn) ((h.marks l hl').restricted hOwn)
    ((h.apart_without hGet).1 l hl _ live.tag.marker_mem_symbols y hOwn).symm

end Without

section Drop

variable (h : s.Sound issued) (hGet : s.constraints.get? id = some live)
include h hGet

theorem Sound.forgot : Tableau.Forgot issued s.tableau (s.tableau.forget live)
    live.constraint.strength.value live.tag.errors := by
  have hLive := mem_values_of_get? hGet
  refine h.rest.regular.forgot h.ledger.numbered.distinct (fun x hx => ?_) _
  have hOwn := Tag.mem_symbols_of_mem_errors hx
  exact ⟨h.ledger.columns live hLive x hOwn, (h.ledger.marks live hLive).restricted hOwn⟩

theorem Sound.satisfies_forget :
    (s.tableau.forget live).Satisfies a ↔ ∀ l ∈ s.constraints.values, s.equation l a = 0 := by
  rw [Tableau.Satisfies, (h.forgot hGet).rows]
  exact h.meaning.rows a

theorem Sound.objective_forget : ∃ k, ∀ a, (s.tableau.forget live).Satisfies a →
    (s.tableau.forget live).objective.value a = k + (s.withoutConstraint id).errorCost a := by
  obtain ⟨k, hk⟩ := h.meaning.objective
  refine ⟨k, fun a hSat => ?_⟩
  rw [Tableau.Satisfies, (h.forgot hGet).rows] at hSat
  rw [(h.forgot hGet).objective a hSat, hk a hSat, errorCost_without hGet, Tag.errorSum]
  ring

theorem Sound.dropped (hDrop : (s.tableau.forget live).dropMarker? live.tag.marker = some u) :
    Tableau.Dropped issued (s.tableau.forget live) u live.tag.marker := by
  have hForgot := h.forgot hGet
  refine hForgot.regular.dropped (fun c hc => ?_) (h.rest.feasible.mono hForgot.rows)
    (hForgot.artificial.trans h.rest.artificial) h.ledger.numbered.distinct
    (h.ledger.marker_mem (mem_values_of_get? hGet)) (fun a b ha hb hSame => ?_) hDrop
  · rw [hForgot.queue, h.rest.queue] at hc
    cases hc
  · obtain ⟨k, hk⟩ := h.objective_forget hGet
    rw [hk a ha, hk b hb, h.ledger.errorCost_congr hGet hSame]

/-- Dropping the marker leaves exactly what the other constraints say. -/
theorem Sound.represents_dropped
    (hDrop : (s.tableau.forget live).dropMarker? live.tag.marker = some u) :
    (s.withoutConstraint id).Represents u := by
  have hDropped := h.dropped hGet hDrop
  have hPerm := Registry.values_perm_erase hGet
  refine ⟨fun a => ⟨fun hSat l hl => ?_, fun hOthers => ?_⟩, ?_, ?_⟩
  · obtain ⟨x, hx, _⟩ := hDropped.backward a hSat
    have hOld := (h.satisfies_forget hGet).mp hx l (mem_values_of_without hGet hl)
    rwa [h.ledger.equation_update hGet hl x] at hOld
  · -- The equation of the removed constraint holds at some value of its marker.
    have hMarks := h.ledger.marks live (mem_values_of_get? hGet)
    have hKind := hMarks.restricted live.tag.marker_mem_symbols
    obtain ⟨x, hx⟩ := hMarks.exists_marker (s.residual (s.tracked.valuation a) live.constraint) a
    refine hDropped.forward a x ((h.satisfies_forget hGet).mpr fun l hl => ?_)
    rcases List.mem_cons.mp (hPerm.mem_iff.mp hl) with rfl | hl
    · rw [equation, h.ledger.valuation_update (h.ledger.marker_mem (mem_values_of_get? hGet)) hKind]
      exact hx
    · rw [h.ledger.equation_update hGet hl x]
      exact hOthers l hl
  · have hSize := hDropped.size
    have hLength := hPerm.length_eq
    rw [(h.forgot hGet).rows, h.meaning.size] at hSize
    exact Nat.add_right_cancel (hSize.trans hLength)
  · obtain ⟨k, hk⟩ := h.objective_forget hGet
    refine ⟨k, fun a hSat => ?_⟩
    obtain ⟨x, hx, hValue⟩ := hDropped.backward a hSat
    rw [hValue, hk _ hx]
    refine congrArg (k + ·) (h.ledger.errorCost_congr hGet fun y _ _ hne => ?_)
    exact Function.update_of_ne hne _ _

end Drop

theorem target_retireEdit {k : Nat} (hne : k ≠ id) : (s.retireEdit id).target k = s.target k := by
  have hFind : (s.retireEdit id).edits.values.find? (fun e => e.constraint.id == k) =
      s.edits.values.find? fun e => e.constraint.id == k := by
    simp only [retireEdit, Registry.filter, Registry.values, List.find?_map, List.find?_filter]
    congr 2
    funext e
    by_cases hId : e.2.constraint.id = k
    · simp [hId, hne]
    · simp [hId]
  rw [target, hFind, target]

section Release

variable {after : Solver Rat} (h : s.Ledger issued) (hGet : s.constraints.get? id = some live)
  (hConstraints : after.constraints = s.constraints.erase id)
  (hTracked : after.tracked = s.tracked.releaseAll (mentions live.constraint.expression.terms))
  (hEdits : after.edits = (s.retireEdit id).edits)
include h hGet hTracked

theorem Ledger.counts_removed : after.tracked.Counts (s.withoutConstraint id).mentioned := by
  have hCounts := h.counts
  rw [mentioned_without hGet] at hCounts
  rw [hTracked]
  exact hCounts.releaseAll

include hEdits in
theorem Ledger.equation_removed (hl : l ∈ (s.withoutConstraint id).constraints.values) :
    after.equation l a = s.equation l a := by
  have hCounts := h.counts_removed hGet hTracked
  have hHeld : after.tracked.Extends s.tracked := hTracked ▸ VariableTable.extends_releaseAll
  refine equation_congr ?_ fun v hv => ?_
  · rw [target_congr hEdits, target_retireEdit (h.id_ne_of_without hl)]
  · exact (hHeld.valuation hCounts (mem_mentioned hl hv)).symm

include hConstraints hEdits in
/-- With its references given back and its edit variable ended, a constraint has left the books. -/
theorem Ledger.removed (hLast : after.lastSymbol = s.lastSymbol) : after.Ledger issued := by
  have hErased : after.constraints = (s.withoutConstraint id).constraints := hConstraints
  constructor
  case numbered => exact hLast ▸ h.numbered
  case named =>
    rw [hTracked]
    exact h.named.of_extends VariableTable.extends_releaseAll
  case counts =>
    rw [mentioned, hErased]
    exact h.counts_removed hGet hTracked
  case keys =>
    rw [hConstraints]
    exact fun e he => h.keys e (Registry.mem_erase_iff.mp he).1
  case marks =>
    rw [hErased]
    exact fun l hl => h.marks l (mem_values_of_without hGet hl)
  case columns =>
    rw [hErased]
    exact fun l hl => h.columns l (mem_values_of_without hGet hl)
  case apart =>
    rw [hErased]
    exact (h.apart_without hGet).2
  case edits =>
    intro e he
    rw [hEdits] at he
    obtain ⟨he, hne⟩ := List.mem_filter.mp he
    have hEdit := h.edits e he
    refine ⟨?_, hEdit.optional, hEdit.equal, hEdit.terms⟩
    rw [hConstraints, Registry.get?_erase, if_neg fun hId => by simp [hId] at hne]
    exact hEdit.live

end Release

/-- What a removal that succeeds leaves behind. -/
structure Removed (issued : Set Symbol) (s : Solver Rat) (live : LiveConstraint Rat)
    (after : Solver Rat) : Prop where
  sound : after.Sound issued
  constraints : after.constraints = s.constraints.erase live.constraint.id
  dropped : ∃ t, (s.tableau.forget live).dropMarker? live.tag.marker = some t
  pinned : s.tableau.Pinned → ¬ s.tableau.Loosens live.tag.marker → after.tableau.Pinned

theorem Sound.removed (h : s.Sound issued) (hGet : s.constraints.get? id = some live)
    (hDrop : (s.tableau.forget live).dropMarker? live.tag.marker = some t)
    (hSettled : Tableau.Settled issued t u) {after : Solver Rat}
    (hConstraints : after.constraints = s.constraints.erase id)
    (hTracked : after.tracked = s.tracked.releaseAll (mentions live.constraint.expression.terms))
    (hEdits : after.edits = (s.retireEdit id).edits) (hLast : after.lastSymbol = s.lastSymbol)
    (hTableau : after.tableau = { u with touched := [] }) : Removed issued s live after where
  sound := by
    have hLedger := h.ledger.removed hGet hConstraints hTracked hEdits hLast
    have hSays := (h.represents_dropped hGet hDrop).of_sameMeaning hSettled.meaning
    have hNone := (h.dropped hGet hDrop).artificial
    refine ⟨hLedger, ?_, ?_⟩
    · rw [hTableau]
      exact (AtRest.of_settled hSettled hNone).congr subset_rfl rfl rfl rfl rfl
    · rw [hTableau]
      refine hSays.of_equations hConstraints (fun l hl a => ?_) rfl rfl
      exact h.ledger.equation_removed hGet hTracked hEdits hl
  constraints := by rw [hConstraints, h.ledger.id_eq hGet]
  dropped := ⟨t, hDrop⟩
  pinned hPinned hTight := by
    have hForgot := h.forgot hGet
    have hDropPinned : t.Pinned := ((hPinned.mono hForgot.rows).dropMarker?_iff hForgot.regular
      h.ledger.numbered.distinct hDrop).mpr fun hLoosens =>
        hTight ((Tableau.loosens_congr hForgot.rows).mp hLoosens)
    rw [hTableau]
    exact (hSettled.pinned hDropPinned).mono rfl

/-- The ways in which removing a live constraint can end. -/
inductive Removal (issued : Set Symbol) (s : Solver Rat) (live : LiveConstraint Rat)
    (a : Attempt SolverError Unit (Solver Rat)) : Prop where
  | broken (cause : Breakdown) (result : a.result = .error (.breakdown cause))
  | removed (result : a.result = .ok ()) (removed : Removed issued s live a.state)

/-- The edit variable of the constraint may have ended before. -/
theorem Sound.removal (h : s.Sound issued) (hGet : s.constraints.get? id = some live)
    (edits : Registry Variable (Edit Rat))
    (hEdits : edits.filter (fun _ e => !(e.constraint.id == id)) = (s.retireEdit id).edits) :
    Removal issued s live ({ s with edits }.removeConstraint id) := by
  rw [removeConstraint]
  simp only [hGet]
  split
  · exact .broken _ rfl
  · rename_i t hDrop
    have hDropped := h.dropped hGet hDrop
    split
    · exact .broken _ rfl
    · rename_i u hSettle
      have hSettled := Tableau.settle_settles h.ledger.numbered.distinct hDropped.regular
        hDropped.orderly hDropped.feasible hSettle
      refine .removed rfl ?_
      obtain ⟨dropped, hAfter, _⟩ := release_eq_markAll (absorb { s with
        edits, constraints := s.constraints.erase id, tableau := s.tableau.forget live } u)
        live.constraint
      rw [Attempt.done, hAfter]
      exact h.removed hGet hDrop hSettled rfl rfl hEdits rfl rfl

theorem Sound.removal_of_live (h : s.Sound issued) (hGet : s.constraints.get? id = some live) :
    Removal issued s live (s.removeConstraint id) :=
  h.removal hGet s.edits rfl

end Solver

end SoftSimplex
