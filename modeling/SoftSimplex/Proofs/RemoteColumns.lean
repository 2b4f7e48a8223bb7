import SoftSimplex.Proofs.SolverInvariant
import SoftSimplex.Proofs.UntouchedRows

/-!
# Columns of detached variables

If no live constraint ties a set of variables to other variables, the columns of the set and of the
constraints on it are a part of the tableau for themselves: every equation has columns of one part only,
so the solutions of the two parts can be mixed, and no row joins them.
-/

namespace SoftSimplex
set_option autoImplicit false

open Tableau (Untouched Lasting numberedIn)

namespace Solver

variable {issued most : Set Symbol} {s : Solver Rat} {c : Constraint Rat} {l : LiveConstraint Rat}
  {v : Variable} {x : Symbol} {R : Set Variable} {a b : Nat → Rat}

/-- No live constraint ties a variable of a set to one outside, and a given constraint mentions none of
the set. -/
structure Detached (s : Solver Rat) (c : Constraint Rat) (R : Set Variable) : Prop where
  own : ∀ v ∈ mentions c.expression.terms, v ∉ R
  others : ∀ l ∈ s.constraints.values, ∀ v ∈ mentions l.constraint.expression.terms,
    ∀ w ∈ mentions l.constraint.expression.terms, v ∈ R → w ∈ R

/-- A constraint that mentions variables of a set only, and is not the given one. -/
def Remote (c : Constraint Rat) (R : Set Variable) (l : LiveConstraint Rat) : Prop :=
  l.constraint ≠ c ∧ ∀ v ∈ mentions l.constraint.expression.terms, v ∈ R

/-- The columns of some variables and of the constraints on them. -/
def remoteColumns (s : Solver Rat) (c : Constraint Rat) (R : Set Variable) : Set Nat :=
  {n | (∃ v ∈ R, ∃ x, s.tracked.symbol? v = some x ∧ x.id = n) ∨
    ∃ l ∈ s.constraints.values, Remote c R l ∧ ∃ x ∈ l.tag.symbols, x.id = n}

section Columns

theorem Ledger.exists_remote (h : s.Ledger issued) {n : Nat} (hn : n ∈ s.remoteColumns c R) :
    ∃ x ∈ issued, x.id = n := by
  obtain ⟨v, _, x, hx, hId⟩ | ⟨l, hl, _, x, hx, hId⟩ := hn
  · exact ⟨x, (h.named.external v x hx).1, hId⟩
  · exact ⟨x, h.columns l hl x hx, hId⟩

theorem Ledger.symbol_remote_iff (h : s.Ledger issued) (hx : s.tracked.symbol? v = some x) :
    x.id ∈ s.remoteColumns c R ↔ v ∈ R := by
  obtain ⟨hIssued, hExternal⟩ := h.named.external v x hx
  constructor
  · rintro (⟨w, hw, y, hy, hId⟩ | ⟨l, hl, _, y, hy, hId⟩)
    · obtain rfl := h.numbered.distinct (h.named.external w y hy).1 hIssued hId
      rwa [h.named.distinct v w y hx hy]
    · obtain rfl := h.numbered.distinct (h.columns l hl y hy) hIssued hId
      cases hExternal.symm.trans ((h.marks l hl).restricted hy)
  · exact fun hv => .inl ⟨v, hv, x, hx, rfl⟩

theorem Ledger.tag_remote_iff (h : s.Ledger issued) (hl : l ∈ s.constraints.values)
    (hx : x ∈ l.tag.symbols) : x.id ∈ s.remoteColumns c R ↔ Remote c R l := by
  constructor
  · rintro (⟨w, _, y, hy, hId⟩ | ⟨k, hk, hRemote, y, hy, hId⟩)
    · obtain ⟨hIssued, hExternal⟩ := h.named.external w y hy
      obtain rfl := h.numbered.distinct hIssued (h.columns l hl x hx) hId
      cases hExternal.symm.trans ((h.marks l hl).restricted hx)
    · by_cases hSame : k = l
      · exact hSame ▸ hRemote
      · exact absurd hId (h.column_ne hk hl hSame hy hx)
  · exact fun hRemote => .inr ⟨l, hl, hRemote, x, hx, rfl⟩

theorem equation_congr_columns
    (hVariables : ∀ v ∈ mentions l.constraint.expression.terms, ∀ x,
      s.tracked.symbol? v = some x → a x.id = b x.id)
    (hTag : ∀ x ∈ l.tag.symbols, a x.id = b x.id) : s.equation l a = s.equation l b := by
  rw [equation, equation, residual, residual, Tag.balance_congr hTag,
    Expression.value_congr fun v hv => ?_]
  rw [VariableTable.valuation, VariableTable.valuation]
  cases hSymbol : s.tracked.symbol? v with
  | none => rfl
  | some x => exact hVariables v hv x hSymbol

theorem Detached.not_remote (hDetached : s.Detached c R) (hl : l ∈ s.constraints.values)
    (hNear : ¬ Remote c R l) : ∀ v ∈ mentions l.constraint.expression.terms, v ∉ R := by
  intro v hv hIn
  by_cases hOwn : l.constraint = c
  · exact hDetached.own v (hOwn ▸ hv) hIn
  · exact hNear ⟨hOwn, fun w hw => hDetached.others l hl v hv w hw hIn⟩

/-- Every equation has remote columns only, or none. -/
theorem Sound.mixes (h : s.Sound issued) (hDetached : s.Detached c R) :
    s.tableau.Mixes (s.remoteColumns c R) := by
  intro a b m ha hb hIn hOut
  refine (h.meaning.rows m).mpr fun l hl => ?_
  by_cases hRemote : Remote c R l
  · rw [equation_congr_columns (b := a)
      (fun v hv x hx => hIn _ ((h.ledger.symbol_remote_iff hx).mpr (hRemote.2 v hv)))
      fun x hx => hIn _ ((h.ledger.tag_remote_iff hl hx).mpr hRemote)]
    exact (h.meaning.rows a).mp ha l hl
  · have hNear := hDetached.not_remote hl hRemote
    rw [equation_congr_columns (b := b)
      (fun v hv x hx => hOut _ fun hn => hNear v hv ((h.ledger.symbol_remote_iff hx).mp hn))
      fun x hx => hOut _ fun hn => hRemote ((h.ledger.tag_remote_iff hl hx).mp hn)]
    exact (h.meaning.rows b).mp hb l hl

section Split

variable (h : s.Sound issued) (hDetached : s.Detached c R)
include h hDetached

theorem Sound.inside : s.tableau.Closed (numberedIn (s.remoteColumns c R)) :=
  (h.mixes hDetached).closed h.rest.regular

theorem Sound.outside : s.tableau.Closed (numberedIn (s.remoteColumns c R)ᶜ) :=
  (h.mixes hDetached).compl.closed h.rest.regular

theorem Sound.untouched_self : s.tableau.Untouched (s.remoteColumns c R) s.tableau :=
  .refl (h.outside hDetached) h.rest.artificial

theorem Sound.lasting_untouched (goal : Goal) (hMost : issued ⊆ most)
    (hDistinct : Set.InjOn Symbol.id most) :
    Lasting most goal (s.tableau.Untouched (s.remoteColumns c R)) :=
  Untouched.lasting (h.inside hDetached) h.rest.feasible fun _ hy hKind =>
    h.rest.dualFeasible.coefficient_nonneg hDistinct (h.rest.regular.solved.weaken hMost) hy hKind

/-- Raising a remote column moves no other column. -/
theorem Sound.complete_raised (hx : x.id ∈ s.remoteColumns c R) {n : Nat}
    (hn : n ∉ s.remoteColumns c R) :
    s.tableau.complete (Function.update 0 x.id 1) n = s.tableau.complete 0 n := by
  refine (h.outside hDetached).complete_congr (fun k hk => ?_) hn
  exact Function.update_of_ne (fun hId : k = x.id => hk (hId ▸ hx)) _ _

end Split

end Columns

end Solver

end SoftSimplex
