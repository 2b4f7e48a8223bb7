import SoftSimplex.Proofs.EncodedRow
import SoftSimplex.Proofs.Passes

/-!
# The invariant of a solver

Between two operations the books are in order: every live constraint has columns of its own, every
variable that it mentions is tracked, and every edit variable has its constraint. The tableau is at
an optimum and says, row for row, what the live constraints say; its objective is, up to a constant,
the weighed sum of their errors.
-/

namespace SoftSimplex
set_option autoImplicit false

namespace Tag

variable {tag : Tag} {c : Constraint Rat} {a b : Nat → Rat}

theorem errorSum_add (tag : Tag) (a b : Nat → Rat) :
    tag.errorSum (a + b) = tag.errorSum a + tag.errorSum b := by
  simp only [errorSum, Pi.add_apply, List.sum_map_add]

end Tag

/-- Two live constraints have no column in common. -/
def LiveConstraint.Apart (l k : LiveConstraint Rat) : Prop :=
  ∀ x ∈ l.tag.symbols, ∀ y ∈ k.tag.symbols, x.id ≠ y.id

instance : Std.Symm LiveConstraint.Apart :=
  ⟨fun _ _ hApart x hx y hy => (hApart y hy x hx).symm⟩

namespace Solver

/-- What the equation of a live constraint, with the constraint's own columns, relates to zero. -/
def equation (s : Solver Rat) (live : LiveConstraint Rat) (a : Nat → Rat) : Rat :=
  s.residual (s.tracked.valuation a) live.constraint + live.tag.balance live.constraint a

/-- The errors of the live constraints, weighed by their strengths. -/
def errorCost (s : Solver Rat) (a : Nat → Rat) : Rat :=
  (s.constraints.values.map fun l => l.constraint.strength.value * l.tag.errorSum a).sum

/-- The variables that live constraints mention, as often as they do. -/
def mentioned (s : Solver Rat) : Multiset Variable :=
  (s.constraints.values.map fun l => (mentions l.constraint.expression.terms : Multiset Variable)).sum

/-- An edit variable and its constraint. -/
structure LiveEdit (constraints : Registry Nat (LiveConstraint Rat)) (v : Variable)
    (edit : Edit Rat) : Prop where
  live : constraints.get? edit.constraint.id = some ⟨edit.constraint, edit.tag⟩
  optional : edit.constraint.isRequired = false
  equal : edit.constraint.relation = .equal
  terms : edit.constraint.expression.terms.map Term.var = [v]

/-- The constraints, variables and edit variables fit together. -/
structure Ledger (issued : Set Symbol) (s : Solver Rat) : Prop where
  numbered : Numbered issued s.lastSymbol
  named : s.tracked.Named issued
  counts : s.tracked.Counts s.mentioned
  keys : ∀ e ∈ s.constraints.entries, e.2.constraint.id = e.1
  marks : ∀ l ∈ s.constraints.values, l.tag.Marks l.constraint
  columns : ∀ l ∈ s.constraints.values, ∀ x ∈ l.tag.symbols, x ∈ issued
  apart : s.constraints.values.Pairwise LiveConstraint.Apart
  edits : ∀ e ∈ s.edits.entries, LiveEdit s.constraints e.1 e.2

/-- A tableau says what the live constraints of a solver say. -/
structure Represents (s : Solver Rat) (t : Tableau Rat) : Prop where
  rows : ∀ a, t.Satisfies a ↔ ∀ l ∈ s.constraints.values, s.equation l a = 0
  size : t.rows.entries.length = s.constraints.values.length
  objective : ∃ k, ∀ a, t.Satisfies a → t.objective.value a = k + s.errorCost a

/-- A tableau between two operations. -/
structure AtRest (issued : Set Symbol) (t : Tableau Rat) : Prop where
  regular : t.Regular issued
  feasible : t.Feasible
  dualFeasible : t.DualFeasible
  queue : t.infeasible = []
  artificial : t.artificial = none

structure Sound (issued : Set Symbol) (s : Solver Rat) : Prop where
  ledger : s.Ledger issued
  rest : AtRest issued s.tableau
  meaning : s.Represents s.tableau

variable {issued : Set Symbol} {s next : Solver Rat} {t u : Tableau Rat} {l : LiveConstraint Rat}
  {a b : Nat → Rat}

theorem AtRest.orderly (h : AtRest issued t) : t.Orderly issued := by
  intro c hc
  rw [h.queue] at hc
  cases hc

theorem AtRest.of_settled (h : Tableau.Settled issued t u) (hNone : t.artificial = none) :
    AtRest issued u where
  regular := h.regular
  feasible := h.feasible
  dualFeasible := h.dualFeasible
  queue := h.queue
  artificial := Tableau.artificial_eq_none h.artificial hNone

theorem AtRest.congr {more : Set Symbol} (h : AtRest issued t) (hMore : issued ⊆ more)
    (hRows : u.rows = t.rows) (hObjective : u.objective = t.objective)
    (hQueue : u.infeasible = t.infeasible) (hArtificial : u.artificial = t.artificial) :
    AtRest more u where
  regular := by
    have hRegular : t.Regular more := ⟨h.regular.solved.weaken hMore, h.regular.reduced,
      h.regular.separate⟩
    exact hRegular.mono hRows hObjective fun _ hr => hArtificial ▸ hr
  feasible := h.feasible.mono hRows
  dualFeasible e he := h.dualFeasible e (hObjective ▸ he)
  queue := hQueue.trans h.queue
  artificial := hArtificial.trans h.artificial

theorem mem_mentioned (hl : l ∈ s.constraints.values) {v : Variable}
    (hv : v ∈ mentions l.constraint.expression.terms) : v ∈ s.mentioned :=
  Multiset.mem_of_le (List.single_le_sum (fun _ _ => Multiset.zero_le _) _
    (List.mem_map.mpr ⟨l, hl, rfl⟩)) (Multiset.mem_coe.mpr hv)

theorem constraintList_insert {α : Type} [Scalar α] {s next : Solver α} {c : Constraint α} {tag : Tag}
    (hNew : s.constraints.get? c.id = none)
    (hConstraints : next.constraints = s.constraints.insert c.id ⟨c, tag⟩) :
    next.constraintList = s.constraintList ++ [c] := by
  rw [constraintList, hConstraints, Registry.values_insert hNew, List.map_append]
  rfl

section Ledger

variable (h : s.Ledger issued)
include h

theorem Ledger.get?_of_mem (hl : l ∈ s.constraints.values) :
    s.constraints.get? l.constraint.id = some l := by
  obtain ⟨k, hk⟩ := Registry.mem_values_iff.mp hl
  obtain rfl : l.constraint.id = k := h.keys _ hk
  exact Registry.get?_eq_some_iff.mpr hk

theorem Ledger.column_ne {k : LiveConstraint Rat} (hl : l ∈ s.constraints.values)
    (hk : k ∈ s.constraints.values) (hne : l ≠ k) {x y : Symbol} (hx : x ∈ l.tag.symbols)
    (hy : y ∈ k.tag.symbols) : x.id ≠ y.id :=
  h.apart.forall hl hk hne x hx y hy

/-- The columns of constraints are no variables. -/
theorem Ledger.valuation_congr (hSame : ∀ x ∈ issued, x.isExternal = true → a x.id = b x.id) :
    s.tracked.valuation a = s.tracked.valuation b := by
  funext v
  rw [VariableTable.valuation, VariableTable.valuation]
  cases hSymbol : s.tracked.symbol? v with
  | none => rfl
  | some x => exact hSame x (h.named.external v x hSymbol).1 (h.named.external v x hSymbol).2

theorem Ledger.valuation_update {x : Symbol} (hx : x ∈ issued) (hKind : x.isExternal = false)
    (y : Rat) : s.tracked.valuation (Function.update a x.id y) = s.tracked.valuation a := by
  refine h.valuation_congr fun z hz hExternal => Function.update_of_ne (fun hId => ?_) _ _
  rw [h.numbered.distinct hz hx hId, hKind] at hExternal
  cases hExternal

theorem Ledger.equation_update_of_ne {x : Symbol} (hx : x ∈ issued) (hKind : x.isExternal = false)
    (hOthers : ∀ y ∈ l.tag.symbols, y.id ≠ x.id) (y : Rat) :
    s.equation l (Function.update a x.id y) = s.equation l a := by
  rw [equation, equation, h.valuation_update hx hKind,
    Tag.balance_congr fun z hz => Function.update_of_ne (hOthers z hz) _ _]

theorem Ledger.marker_mem (hl : l ∈ s.constraints.values) : l.tag.marker ∈ issued :=
  h.columns l hl _ l.tag.marker_mem_symbols

end Ledger

section Targets

theorem target_of_mem (hUnique : ∀ e ∈ s.edits.values, ∀ f ∈ s.edits.values,
    e.constraint.id = f.constraint.id → e = f) {edit : Edit Rat} (h : edit ∈ s.edits.values) :
    s.target edit.constraint.id = edit.value := by
  have hSome : (s.edits.values.find? fun e => e.constraint.id == edit.constraint.id).isSome :=
    List.find?_isSome.mpr ⟨edit, h, by simp⟩
  obtain ⟨found, hFound⟩ := Option.isSome_iff_exists.mp hSome
  have hId : found.constraint.id = edit.constraint.id := by simpa using List.find?_some hFound
  rw [target, hFound, hUnique found (List.mem_of_find?_eq_some hFound) edit h hId]

theorem target_of_forall_ne {id : Nat} (h : ∀ e ∈ s.edits.values, e.constraint.id ≠ id) :
    s.target id = 0 := by
  have hNone : (s.edits.values.find? fun e => e.constraint.id == id) = none :=
    List.find?_eq_none.mpr fun e he => by simpa using h e he
  rw [target, hNone]

theorem Ledger.edit_unique (h : s.Ledger issued) {e f : Edit Rat} (he : e ∈ s.edits.values)
    (hf : f ∈ s.edits.values) (hId : e.constraint.id = f.constraint.id) : e = f := by
  obtain ⟨v, hv⟩ := Registry.mem_values_iff.mp he
  obtain ⟨w, hw⟩ := Registry.mem_values_iff.mp hf
  have hSame : e.constraint = f.constraint := by
    have hLive := (h.edits _ hv).live.symm.trans (hId ▸ (h.edits _ hw).live)
    exact congrArg LiveConstraint.constraint (Option.some.inj hLive)
  have hKey : [v] = [w] := (h.edits _ hv).terms.symm.trans (hSame ▸ (h.edits _ hw).terms)
  exact congrArg Prod.snd (Registry.eq_of_mem_of_key_eq hv hw (List.cons.inj hKey).1)

theorem Ledger.target_edit (h : s.Ledger issued) {v : Variable} {edit : Edit Rat}
    (hEdit : s.edits.get? v = some edit) : s.target edit.constraint.id = edit.value :=
  target_of_mem (fun _ he _ hf hId => h.edit_unique he hf hId)
    (Registry.mem_values_iff.mpr ⟨v, Registry.get?_eq_some_iff.mp hEdit⟩)

theorem Ledger.target_of_not_live (h : s.Ledger issued) {id : Nat}
    (hNew : s.constraints.get? id = none) : s.target id = 0 := by
  refine target_of_forall_ne fun e he hId => ?_
  obtain ⟨v, hv⟩ := Registry.mem_values_iff.mp he
  have hLive := (h.edits _ hv).live
  rw [hId, hNew] at hLive
  cases hLive

end Targets

theorem equation_congr (hTarget : next.target l.constraint.id = s.target l.constraint.id)
    (hValuation : ∀ v ∈ mentions l.constraint.expression.terms,
      next.tracked.valuation a v = s.tracked.valuation a v) :
    next.equation l a = s.equation l a := by
  rw [equation, equation, residual, residual, hTarget, Expression.value_congr hValuation]

theorem Ledger.congr (h : s.Ledger issued) (hConstraints : next.constraints = s.constraints)
    (hEdits : next.edits = s.edits) (hVariables : next.tracked = s.tracked)
    (hLast : next.lastSymbol = s.lastSymbol) : next.Ledger issued := by
  cases next
  cases s
  simp only at hConstraints hEdits hVariables hLast
  subst hConstraints hEdits hVariables hLast
  exact ⟨h.numbered, h.named, h.counts, h.keys, h.marks, h.columns, h.apart, h.edits⟩

theorem target_congr (hEdits : next.edits = s.edits) (id : Nat) : next.target id = s.target id := by
  rw [target, hEdits, target]

/-- A tableau says as much of any solver whose live constraints have the same equations. -/
theorem Represents.of_equations (h : s.Represents t) (hConstraints : next.constraints = s.constraints)
    (hEquation : ∀ l ∈ s.constraints.values, ∀ a, next.equation l a = s.equation l a)
    (hRows : u.rows = t.rows) (hObjective : u.objective = t.objective) : next.Represents u where
  rows a := by
    rw [Tableau.Satisfies, hRows, hConstraints]
    refine (h.rows a).trans (forall₂_congr fun l hl => ?_)
    rw [hEquation l hl]
  size := by
    rw [hRows, hConstraints]
    exact h.size
  objective := by
    obtain ⟨k, hk⟩ := h.objective
    refine ⟨k, fun a ha => ?_⟩
    rw [Tableau.Satisfies, hRows] at ha
    rw [hObjective, errorCost, hConstraints]
    exact hk a ha

theorem Represents.congr (h : s.Represents t) (hConstraints : next.constraints = s.constraints)
    (hEdits : next.edits = s.edits) (hTracked : next.tracked = s.tracked) :
    next.Represents t := by
  refine h.of_equations hConstraints (fun l _ a => ?_) rfl rfl
  exact equation_congr (target_congr hEdits _) fun v _ => by rw [hTracked]

theorem Represents.of_sameMeaning (h : s.Represents t) (hSame : t.SameMeaning u) :
    s.Represents u where
  rows a := (hSame.rows a).trans (h.rows a)
  size := hSame.size.trans h.size
  objective := by
    obtain ⟨k, hk⟩ := h.objective
    refine ⟨k, fun a ha => ?_⟩
    have ha := (hSame.rows a).mp ha
    rw [hSame.objective a ha, hk a ha]

/-- A solver whose books are in order is sound again once a tableau that represents them is
settled. -/
theorem sound_absorb (hLedger : s.Ledger issued) (hMeaning : s.Represents u)
    (hSettled : Tableau.Settled issued u t) (hNone : u.artificial = none) :
    (s.absorb t).Sound issued where
  ledger := ⟨hLedger.numbered, hLedger.named, hLedger.counts, hLedger.keys, hLedger.marks,
    hLedger.columns, hLedger.apart, hLedger.edits⟩
  rest := (AtRest.of_settled hSettled hNone).congr subset_rfl rfl rfl rfl rfl
  meaning :=
    have hMeaning := hMeaning.of_sameMeaning hSettled.meaning
    ⟨hMeaning.rows, hMeaning.size, hMeaning.objective⟩

end Solver

end SoftSimplex
