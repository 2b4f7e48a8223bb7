import SoftSimplex.Proofs.SolverInvariant

/-!
# The symbols of a tableau have owners

A symbol stands while a tracked variable or a live constraint owns it. The tableau shows no other symbol
in exact arithmetic: no live equation depends on a symbol that does not stand, so the rows would have
solutions that differ in that symbol alone, which a basic symbol, a cell of a row or a cell of the
objective rules out.
-/

namespace SoftSimplex
set_option autoImplicit false

/-- The places of a tableau where symbols are. -/
inductive Tableau.Shows {α : Type} (t : Tableau α) (x : Symbol) : Prop where
  | basic (row : Row α) (entry : (x, row) ∈ t.rows.entries)
  | cell (e : Symbol × Row α) (entry : e ∈ t.rows.entries) (key : x ∈ e.2.cells.keys)
  | objective (key : x ∈ t.objective.cells.keys)

namespace Solver

section Standing

variable {α : Type} [Scalar α]

inductive Stands (s : Solver α) (x : Symbol) : Prop where
  | tracked (v : Variable) (own : s.tracked.symbol? v = some x)
  | column (l : LiveConstraint α) (live : l ∈ s.constraints.values) (own : x ∈ l.tag.symbols)

end Standing

section Independence

variable {issued : Set Symbol} {s : Solver Rat} {x : Symbol} {a : Nat → Rat}
  {l : LiveConstraint Rat}

section Ledger

variable (h : s.Ledger issued) (hx : x ∈ issued) (hNot : ¬ s.Stands x)
include h hx hNot

theorem Ledger.valuation_update_of_not_stands (y : Rat) :
    s.tracked.valuation (Function.update a x.id y) = s.tracked.valuation a := by
  funext v
  cases hSymbol : s.tracked.symbol? v with
  | none => rw [VariableTable.valuation, VariableTable.valuation, hSymbol, Option.elim_none,
      Option.elim_none]
  | some z =>
    have hne : z.id ≠ x.id := fun hId =>
      hNot (.tracked v (h.numbered.distinct (h.named.external v z hSymbol).1 hx hId ▸ hSymbol))
    rw [VariableTable.valuation_of_symbol? hSymbol, VariableTable.valuation_of_symbol? hSymbol,
      Function.update_of_ne hne]

theorem Ledger.column_ne_of_not_stands (hl : l ∈ s.constraints.values) :
    ∀ z ∈ l.tag.symbols, z.id ≠ x.id := fun z hz hId =>
  hNot (.column l hl (h.numbered.distinct (h.columns l hl z hz) hx hId ▸ hz))

theorem Ledger.equation_update_of_not_stands (hl : l ∈ s.constraints.values) (y : Rat) :
    s.equation l (Function.update a x.id y) = s.equation l a := by
  have hOthers := h.column_ne_of_not_stands hx hNot hl
  rw [equation, equation, h.valuation_update_of_not_stands hx hNot,
    Tag.balance_congr fun z hz => Function.update_of_ne (hOthers z hz) _ _]

theorem Ledger.errorCost_update_of_not_stands (y : Rat) :
    s.errorCost (Function.update a x.id y) = s.errorCost a := by
  rw [errorCost, errorCost]
  refine congrArg List.sum (List.map_congr_left fun l hl => ?_)
  have hOthers := h.column_ne_of_not_stands hx hNot hl
  rw [Tag.errorSum_congr fun z hz =>
    Function.update_of_ne (hOthers z (Tag.mem_symbols_of_mem_errors hz)) _ _]

end Ledger

theorem Sound.mem_of_shows (h : s.Sound issued) (hx : s.tableau.Shows x) : x ∈ issued := by
  cases hx with
  | basic row hRow => exact h.rest.regular.solved.keys x (SymbolMap.mem_keys_of_mem hRow)
  | cell e he hKey => exact h.rest.regular.solved.columns.rows e he x hKey
  | objective hKey => exact h.rest.regular.solved.columns.objective x hKey

theorem Sound.stands_of_shows (h : s.Sound issued) (hx : s.tableau.Shows x) : s.Stands x := by
  by_contra hNot
  have hIssued := h.mem_of_shows hx
  have hSolved := h.rest.regular.solved
  -- one solution, and the same one with the symbol moved by one
  obtain ⟨a, ha⟩ : ∃ a, s.tableau.Satisfies a := ⟨_, hSolved.satisfies_complete (a := 0)⟩
  have hMoved : s.tableau.Satisfies (Function.update a x.id (a x.id + 1)) := by
    refine (h.meaning.rows _).mpr fun l hl => ?_
    rw [h.ledger.equation_update_of_not_stands hIssued hNot hl]
    exact (h.meaning.rows a).mp ha l hl
  cases hx with
  | basic row hRow =>
    have hBefore := ha _ hRow
    have hAfter := hMoved _ hRow
    have hAvoids := (hSolved.nonbasic x (SymbolMap.mem_keys_of_mem hRow)).rows _ hRow
    have hSame : row.value (Function.update a x.id (a x.id + 1)) = row.value a :=
      Row.value_congr fun c hc => Function.update_of_ne (hAvoids c hc) _ _
    rw [Function.update_self, hSame] at hAfter
    dsimp only at hBefore
    linarith
  | cell e he hKey =>
    have hBefore := ha e he
    have hAfter := hMoved e he
    have hne := (hSolved.nonbasic e.1 (SymbolMap.mem_keys_of_mem he)).rows e he x hKey
    rw [Function.update_of_ne hne.symm, Row.value_update] at hAfter
    refine (h.rest.regular.reduced.rows e he).coefficient_ne_zero hKey ?_
    linarith
  | objective hKey =>
    obtain ⟨k, hk⟩ := h.meaning.objective
    have hBefore := hk _ ha
    have hAfter := hk _ hMoved
    rw [h.ledger.errorCost_update_of_not_stands hIssued hNot, Row.value_update] at hAfter
    refine h.rest.regular.reduced.objective.coefficient_ne_zero hKey ?_
    linarith

end Independence

end Solver

end SoftSimplex
