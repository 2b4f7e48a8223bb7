import SoftSimplex.Proofs.RepairQueue

/-!
# What the cells of a tableau hold

An addition to a row leaves no negligible cell behind, and neither does a substitution, which removes a
cell and adds a row. Only solving a row for a symbol multiplies all of its cells and keeps what comes out.
So a rule that admits every cell that is not negligible holds of all cells as long as each row that is
solved keeps it. No arithmetic is assumed.
-/

namespace SoftSimplex
set_option autoImplicit false

variable {α : Type} [Scalar α]

def Significant (e : Symbol × α) : Prop := Scalar.negligible e.2 = false

namespace Row

variable {P Q : Symbol × α → Prop} {r other : Row α} {s : Symbol} {k : α}

omit [Scalar α] in
/-- A property of every cell. -/
def AllCells (r : Row α) (P : Symbol × α → Prop) : Prop := ∀ e ∈ r.cells.entries, P e

omit [Scalar α] in
theorem AllCells.imp (h : r.AllCells P) (hPQ : ∀ e, P e → Q e) : r.AllCells Q :=
  fun e he => hPQ e (h e he)

omit [Scalar α] in
theorem AllCells.remove (h : r.AllCells P) : (r.remove s).AllCells P :=
  fun e he => h e (SymbolMap.mem_erase_iff.mp he).1

/-- Solving a row for a symbol multiplies the cells that stay. -/
theorem mem_cells_solveFor {e : Symbol × α} (he : e ∈ (r.solveFor s).cells.entries) :
    (r.cells.get? s = none ∧ e ∈ r.cells.entries) ∨
      ∃ c, r.cells.get? s = some c ∧ ∃ d ∈ r.cells.entries, e = (d.1, d.2 * (-1 / c)) := by
  rw [solveFor] at he
  split at he
  · rename_i hNone
    exact .inl ⟨hNone, he⟩
  · rename_i c hCell
    obtain ⟨d, hd, rfl⟩ := SymbolMap.mem_mapValues_iff.mp he
    exact .inr ⟨c, hCell, d, (SymbolMap.mem_erase_iff.mp hd).1, rfl⟩

omit [Scalar α] in
theorem AllCells.foldl_remove (symbols : List Symbol) (h : r.AllCells P) :
    (symbols.foldl Row.remove r).AllCells P := by
  induction symbols generalizing r with
  | nil => exact h
  | cons s rest ih => exact ih h.remove

theorem not_negligible_of_addToCell {cell : Option α} {v : α} (h : addToCell k cell = some v) :
    Scalar.negligible v = false := by
  simp only [addToCell, Option.ite_none_left_eq_some, Option.some.injEq] at h
  obtain ⟨hNot, rfl⟩ := h
  exact Bool.eq_false_iff.mpr hNot

section Additions

variable (hP : ∀ e, Significant e → P e)
include hP

theorem AllCells.addSymbol (h : r.AllCells P) : (r.addSymbol s k).AllCells P := by
  rw [Row.addSymbol]
  split
  · exact h
  · intro e he
    rcases SymbolMap.mem_alter he with ⟨_, hCell⟩ | ⟨_, he⟩
    · apply hP
      exact not_negligible_of_addToCell hCell
    · exact h e he

theorem AllCells.foldl_addSymbol {β : Type} (key : β → Symbol) (f : β → α) (items : List β)
    (h : r.AllCells P) : (items.foldl (fun r i => r.addSymbol (key i) (f i)) r).AllCells P := by
  induction items generalizing r with
  | nil => exact h
  | cons i rest ih => exact ih (h.addSymbol hP)

theorem AllCells.addRow (h : r.AllCells P) : (r.addRow other k).AllCells P :=
  AllCells.foldl_addSymbol hP Prod.fst (fun e => e.2 * k) other.cells.entries
    (r := r.addConstant (other.constant * k)) h

/-- A substitution adds a row, whatever the cells of that row are. -/
theorem AllCells.substitute (h : r.AllCells P) : (r.substitute s other).AllCells P := by
  rw [Row.substitute]
  split
  · exact h
  · exact h.remove.addRow hP

end Additions

end Row

/-- What the cells in the row of each column hold. Cells that are not negligible may always stand. -/
structure CellRule (α : Type) [Scalar α] where
  holds : Nat → Symbol × α → Prop
  admits : ∀ n e, Significant e → holds n e

namespace CellRule

variable {K : CellRule α}

/-- Solving the row for the symbol keeps the rule, whatever column the row was of. -/
def Solves (K : CellRule α) (p : Symbol × Row α) : Prop :=
  ∀ n, p.2.AllCells (K.holds n) → (p.2.solveFor p.1).AllCells (K.holds p.1.id)

/-- The rule is kept by every row that these steps solve. -/
def Outlasts (K : CellRule α) (steps : List (Tableau.Step α)) : Prop :=
  ∀ p ∈ steps.filterMap Tableau.Step.solving?, K.Solves p

theorem outlasts_append {steps more : List (Tableau.Step α)} :
    K.Outlasts (steps ++ more) ↔ K.Outlasts steps ∧ K.Outlasts more := by
  rw [Outlasts, List.filterMap_append]
  exact List.forall_mem_append

theorem Outlasts.solves {steps : List (Tableau.Step α)} (h : K.Outlasts steps) {step : Tableau.Step α}
    (hStep : step ∈ steps) {p : Symbol × Row α} (hp : step.solving? = some p) : K.Solves p :=
  h p (List.mem_filterMap.mpr ⟨step, hStep, hp⟩)

end CellRule

namespace Tableau

variable {K : CellRule α} {t u : Tableau α} {row : Row α} {leaving entering s fresh : Symbol}

/-- The cells of the rows keep a rule, and no cell of the objective is negligible. -/
structure Stores (K : CellRule α) (t : Tableau α) : Prop where
  rows : ∀ e ∈ t.rows.entries, e.2.AllCells (K.holds e.1.id)
  objective : t.objective.AllCells Significant

section Frame

theorem Stores.mono (h : t.Stores K) (hRows : u.rows = t.rows) (hObjective : u.objective = t.objective) :
    u.Stores K :=
  ⟨hRows ▸ h.rows, hObjective ▸ h.objective⟩

theorem Stores.touch (h : t.Stores K) : (t.touch s).Stores K :=
  h.mono (rows_touch t s) (objective_touch t s)

theorem Stores.of_get? (h : t.Stores K) (hGet : t.rows.get? s = some row) :
    row.AllCells (K.holds s.id) := by
  obtain ⟨c, hId, hc⟩ := SymbolMap.exists_mem_of_get? hGet
  have hCells := h.rows _ hc
  rwa [hId] at hCells

theorem Stores.eraseRow (h : t.Stores K) : (t.eraseRow s).Stores K :=
  ⟨fun e he => h.rows e (SymbolMap.mem_erase_iff.mp he).1, h.objective⟩

theorem Stores.insertRow (h : t.Stores K) (hRow : row.AllCells (K.holds s.id)) :
    (t.insertRow s row).Stores K := by
  refine ⟨fun e he => ?_, h.objective⟩
  rcases SymbolMap.mem_alter he with ⟨hId, hRead⟩ | ⟨_, he⟩
  · obtain rfl := Option.some.inj hRead
    rwa [hId]
  · exact h.rows e he

theorem Stores.sameCells (h : t.Stores K) (hSame : t.SameCells u) : u.Stores K := by
  refine ⟨fun e he => ?_, hSame.objective ▸ h.objective⟩
  obtain ⟨r, hr, hCells⟩ := hSame.rows e he
  have hOld := h.rows _ hr
  rwa [Row.AllCells, ← hCells] at hOld

theorem Stores.strike (h : t.Stores K) : (t.strike s).Stores K := by
  refine ⟨fun e he => ?_, h.objective.remove⟩
  obtain ⟨d, hd, rfl⟩ := SymbolMap.mem_mapValues_iff.mp he
  exact (h.rows d hd).remove

end Frame

section Steps

theorem Stores.substitute (h : t.Stores K) : (t.substitute s row).Stores K := by
  refine ⟨fun e he => ?_, h.objective.substitute fun _ he => he⟩
  obtain ⟨d, hd, rfl⟩ := SymbolMap.mem_mapValues_iff.mp he
  exact (h.rows d hd).substitute (K.admits d.1.id)

theorem Stores.eliminate (h : t.Stores K) : (t.eliminate leaving row entering).Stores K :=
  h.eraseRow.substitute.touch

theorem Stores.pivot (h : t.Stores K) (hRow : row.AllCells (K.holds leaving.id))
    (hSolves : K.Solves (entering, row.addSymbol leaving (-1))) :
    (t.pivot leaving row entering).Stores K := by
  apply h.eliminate.touch.insertRow
  exact hSolves leaving.id (hRow.addSymbol (K.admits leaving.id))

theorem Stores.install (h : t.Stores K) (hRow : row.AllCells Significant)
    (hSolves : K.Solves (s, row)) : (t.install row s).Stores K := by
  apply h.substitute.touch.insertRow
  exact hSolves s.id (hRow.imp (K.admits s.id))

theorem Stores.addToBasic (h : t.Stores K) {v : α} (hGet : t.rows.get? s = some row) :
    (t.addToBasic s row v).Stores K := by
  have hCells : (row.addConstant v).AllCells (K.holds s.id) := fun e he => h.of_get? hGet e he
  have hInsert := h.insertRow hCells
  unfold Tableau.addToBasic
  dsimp only
  split
  · exact hInsert.mono rfl rfl
  · exact hInsert

theorem Stores.shiftEdit (h : t.Stores K) (tag : Tag) (δ : α) : (t.shiftEdit tag δ).Stores K := by
  rcases t.shiftEdit_cases tag δ with ⟨row, hGet, hShift⟩ | ⟨x, _, row, hGet, hShift⟩ |
    ⟨_, hShift⟩ <;> rw [hShift]
  · exact h.addToBasic hGet
  · exact h.addToBasic hGet
  · exact h.sameCells sameCells_moveMarker

theorem Stores.dropMarker? (h : t.Stores K) (hDrop : t.dropMarker? s = some u) : u.Stores K := by
  rw [Tableau.dropMarker?] at hDrop
  split at hDrop
  · obtain rfl := Option.some.inj hDrop
    exact h.eraseRow
  · obtain ⟨⟨leaving, row⟩, _, rfl⟩ := Option.map_eq_some_iff.mp hDrop
    exact h.eliminate

/-- Forgetting the weight of a constraint adds to the objective only. -/
theorem Stores.forget (h : t.Stores K) (live : LiveConstraint α) : (t.forget live).Stores K := by
  rw [Tableau.forget]
  induction live.tag.errors generalizing t with
  | nil => exact h
  | cons error rest ih =>
    apply ih
    refine ⟨h.rows, ?_⟩
    dsimp only [Tableau.unweigh]
    split
    · exact h.objective.addRow fun _ he => he
    · exact h.objective.addSymbol fun _ he => he

end Steps

section Passes

variable {limit : Nat}

theorem Stores.optimize {goal : Goal} (h : t.Stores K)
    (hSteps : K.Outlasts (primalSteps goal limit t)) : (t.optimize goal limit).state.Stores K := by
  refine primal_trace (P := fun steps u => K.Outlasts steps → u.Stores K) ?_ limit [] (fun _ => h) hSteps
  intro steps u entering leaving row h _ hLeaving hSteps
  obtain ⟨hBefore, hLast⟩ := CellRule.outlasts_append.mp hSteps
  have hStored := h hBefore
  exact hStored.pivot (hStored.rows _ (mem_rows_of_leavingRow? hLeaving).1)
    (hLast.solves (List.mem_singleton_self _) rfl)

theorem Stores.dualOptimize (h : t.Stores K) (hSteps : K.Outlasts (dualSteps limit t)) :
    (t.dualOptimize limit).state.Stores K := by
  refine dual_trace (P := fun steps u => K.Outlasts steps → u.Stores K) ?_ ?_ limit [] (fun _ => h)
    hSteps
  · intro steps u rest h _ hSteps
    exact (h (CellRule.outlasts_append.mp hSteps).1).mono rfl rfl
  · intro steps u leaving row rest entering h hNext _ hSteps
    obtain ⟨hBefore, hLast⟩ := CellRule.outlasts_append.mp hSteps
    have hStored := h hBefore
    have hPopped : ({ u with infeasible := rest } : Tableau α).Stores K := hStored.mono rfl rfl
    exact hPopped.pivot (hStored.of_get? (nextViolated?_eq_some hNext).2.2.1)
      (hLast.solves (List.mem_cons_of_mem _ (List.mem_singleton_self _)) rfl)

theorem Stores.settle (h : t.Stores K) (hSteps : K.Outlasts (settleSteps limit t)) :
    (t.settle limit).state.Stores K := by
  obtain ⟨hFirst, hThen⟩ := CellRule.outlasts_append.mp hSteps
  have hPrimal := h.optimize hFirst
  rw [Tableau.settle]
  generalize t.optimize .primary limit = pass at hThen hPrimal
  obtain ⟨result, u⟩ := pass
  cases result with
  | error cause => exact hPrimal
  | ok _ => exact hPrimal.dualOptimize hThen

theorem Stores.retired {last : List (Step α)} (h : t.Stores K) (hSteps : K.Outlasts last)
    (hRetires : t.Retires fresh last u) : u.Stores K := by
  cases hRetires with
  | struck _ => exact h.strike
  | erased _ => exact h.eraseRow
  | exchanged hGet _ =>
    exact (h.pivot (h.of_get? hGet) (hSteps.solves List.mem_cons_self rfl)).strike

/-- A phase one that comes to a verdict. -/
theorem Stores.insertArtificially {verdict : Bool} (h : t.Stores K)
    (hRow : row.AllCells Significant) (hSteps : K.Outlasts (t.phaseOneSteps limit fresh row))
    (hOk : t.insertArtificially limit fresh row = ⟨.ok verdict, u⟩) : u.Stores K := by
  obtain ⟨v, last, rfl, hTrace, hRetires⟩ := retires_of_insertArtificially hOk
  rw [hTrace] at hSteps
  obtain ⟨hPass, hLast⟩ := CellRule.outlasts_append.mp hSteps
  have hInserted : (t.insertRow fresh row).Stores K := h.insertRow (hRow.imp (K.admits fresh.id))
  have hStart : (t.phaseOneStart fresh row).Stores K := hInserted.mono rfl rfl
  have hBare : ({ ((t.phaseOneStart fresh row).optimize .artificial limit).state with
      artificial := none } : Tableau α).Stores K := (hStart.optimize hPass).mono rfl rfl
  exact hBare.retired hLast hRetires

end Passes

end Tableau

end SoftSimplex
