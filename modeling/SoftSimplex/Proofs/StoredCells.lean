import SoftSimplex.Proofs.CellRules
import SoftSimplex.Proofs.ToleratedRows

/-!
# Small cells

With a tolerance the cells of the objective are never negligible, because nothing multiplies them. The
cells of the rows are not negligible either, save those that solving the row for its basic symbol has
left: a row that is solved for a symbol of a large coefficient keeps cells below the tolerance, in each
of its columns that no later substitution comes to. A run that never divides by more than one stores no
such cell.
-/

namespace SoftSimplex
set_option autoImplicit false

/-- Arithmetic in which a value is negligible if its opposite is. -/
class EvenTolerance (α : Type) [Scalar α] : Prop where
  negligible_of_neg {a : α} (h : Scalar.negligible (-a) = true) : Scalar.negligible a = true

namespace Solver

variable {α : Type} [Scalar α] {K : CellRule α} {s : Solver α} {c : Constraint α} {tag : Tag}

section Encoding

theorem significant_addTerm {rows : SymbolMap (Row α)} {d : Draft α} (h : d.row.AllCells Significant)
    (term : Term α) : (d.addTerm rows term).row.AllCells Significant := by
  rw [Draft.addTerm]
  split
  · exact h
  · dsimp only
    split
    · exact h.addRow fun _ he => he
    · exact h.addSymbol fun _ he => he

theorem significant_draft (s : Solver α) (c : Constraint α) :
    (s.draft c).row.AllCells Significant := by
  have hFold : ∀ (terms : List (Term α)) (d : Draft α), d.row.AllCells Significant →
      (terms.foldl (Draft.addTerm s.tableau.rows) d).row.AllCells Significant := by
    intro terms
    induction terms with
    | nil => exact fun _ h => h
    | cons term rest ih => exact fun d h => ih _ (significant_addTerm h term)
  apply hFold
  intro e he
  cases he

theorem significant_encode [EvenTolerance α] (s : Solver α) (c : Constraint α) :
    (s.encode c).1.AllCells Significant := by
  have hRaw : (rawRow s c).AllCells Significant :=
    (significant_draft s c).foldl_addSymbol (fun _ he => he) Prod.fst Prod.snd _
  rw [encode_row]
  split
  · intro e he
    obtain ⟨d, hd, rfl⟩ := SymbolMap.mem_mapValues_iff.mp he
    apply Bool.eq_false_iff.mpr
    intro hSmall
    exact Bool.eq_false_iff.mp (hRaw d hd) (EvenTolerance.negligible_of_neg hSmall)
  · exact hRaw

theorem stores_encode (h : s.tableau.Stores K) (c : Constraint α) :
    (s.encode c).2.2.tableau.Stores K :=
  ⟨h.rows, h.objective.foldl_addSymbol (fun _ he => he) id (fun _ => c.strength.value) _⟩

theorem stores_discard (h : s.tableau.Stores K) : (s.discard c tag).tableau.Stores K := by
  rw [discard, tableau_release]
  exact ⟨h.rows, h.objective.foldl_remove _⟩

end Encoding

section Operations

theorem stores_accept (h : s.tableau.Stores K)
    (hSteps : K.Outlasts (s.tableau.settleSteps s.pivotLimit)) :
    (s.accept c tag).state.tableau.Stores K := by
  have hSettled := h.settle hSteps
  rw [accept]
  dsimp only
  generalize s.tableau.settle s.pivotLimit = pass at hSettled
  obtain ⟨result, t⟩ := pass
  cases result with
  | ok _ => exact hSettled.mono rfl rfl
  | error cause => exact hSettled.mono rfl rfl

theorem stores_insertConstraint [EvenTolerance α] (h : s.tableau.Stores K)
    (hSteps : K.Outlasts (s.insertionSteps c)) : (s.insertConstraint c).state.tableau.Stores K := by
  have hEncoded := stores_encode h c
  have hRow := significant_encode s c
  rw [insertConstraint]
  rw [insertionSteps] at hSteps
  split
  · exact h
  · rename_i hNew
    rw [if_neg hNew] at hSteps
    dsimp only at hSteps ⊢
    cases hPlacement : Placement.of (s.encode c).1 (s.encode c).2.1 with
    | basic subject =>
      rw [hPlacement] at hSteps
      have hInstalled := hEncoded.install hRow (hSteps.solves List.mem_cons_self rfl)
      apply stores_accept (hInstalled.mono rfl rfl)
      exact fun p hp => hSteps p (List.mem_cons_of_mem _ hp)
    | contradiction => exact stores_discard hEncoded
    | phaseOne =>
      rw [hPlacement] at hSteps
      dsimp only [insertByPhaseOne] at hSteps ⊢
      cases hPass : (s.encode c).2.2.tableau.insertArtificially (s.encode c).2.2.pivotLimit
        ⟨.slack, (s.encode c).2.2.lastSymbol + 1⟩ (s.encode c).1 with
      | mk result t =>
        rw [hPass] at hSteps
        cases result with
        | error cause => exact stores_discard (hEncoded.mono rfl rfl)
        | ok satisfied =>
          cases satisfied with
          | false => exact stores_discard (hEncoded.mono rfl rfl)
          | true =>
            obtain ⟨hFirst, hThen⟩ := CellRule.outlasts_append.mp hSteps
            have hInserted := hEncoded.insertArtificially hRow hFirst hPass
            exact stores_accept (hInserted.mono rfl rfl) hThen

theorem stores_addConstraints [EvenTolerance α] (h : s.tableau.Stores K) {cs : List (Constraint α)}
    (hSteps : K.Outlasts (s.additionSteps cs)) : (s.addConstraints cs).state.tableau.Stores K := by
  induction cs generalizing s with
  | nil => exact h
  | cons c rest ih =>
    obtain ⟨hInsertion, hLater⟩ := CellRule.outlasts_append.mp hSteps
    have hFirst : (s.addConstraint c).state.tableau.Stores K := stores_insertConstraint h hInsertion
    rw [addConstraints]
    cases hAdd : s.addConstraint c with
    | mk result next =>
      rw [hAdd] at hLater hFirst
      cases result with
      | ok _ => exact ih hFirst hLater
      | error e => exact hFirst

theorem stores_removeConstraint {id : Nat} (h : s.tableau.Stores K)
    (hSteps : K.Outlasts (s.removalSteps id)) : (s.removeConstraint id).state.tableau.Stores K := by
  have hSettled : ∀ {live : LiveConstraint α} {t u : Tableau α} {result : Except Breakdown Unit},
      s.constraints.get? id = some live →
      (s.tableau.forget live).dropMarker? live.tag.marker = some t →
      t.settle s.pivotLimit = ⟨result, u⟩ → u.Stores K := by
    intro live t u result hFound hDrop hPass
    rw [removalSteps_of_dropped hFound hDrop] at hSteps
    have hEnd := ((h.forget live).dropMarker? hDrop).settle hSteps
    rwa [hPass] at hEnd
  have hRemoves := s.removes id
  generalize s.removeConstraint id = a at hRemoves
  cases hRemoves with
  | unknown _ => exact h
  | @stuck live hFound _ => exact h.forget live
  | broken hFound hDrop hPass => exact (hSettled hFound hDrop hPass).mono rfl rfl
  | removed hFound hDrop hPass =>
    dsimp only [Attempt.done, retireEdit]
    rw [tableau_release]
    exact (hSettled hFound hDrop hPass).mono rfl rfl

theorem stores_addEditVariable [EvenTolerance α] (h : s.tableau.Stores K) (v : Variable)
    (w : Strength α) (id : Nat) (hSteps : K.Outlasts (s.operationSteps (.addEditVariable v w id))) :
    (s.addEditVariable v w id).state.tableau.Stores K := by
  rw [addEditVariable]
  rw [operationSteps] at hSteps
  cases hRefusal : s.editRefusal? v w with
  | some e => exact h
  | none =>
    rw [hRefusal] at hSteps
    have hInserted := stores_insertConstraint h hSteps
    dsimp only
    generalize s.insertConstraint (.make id (.ofVariable v) .equal w) = attempt at hInserted
    obtain ⟨result, next⟩ := attempt
    cases result with
    | ok tag => exact hInserted
    | error e => cases e <;> exact hInserted

theorem stores_removeEditVariable (h : s.tableau.Stores K) (v : Variable)
    (hSteps : K.Outlasts (s.operationSteps (.removeEditVariable v))) :
    (s.removeEditVariable v).state.tableau.Stores K := by
  have hRemoved : ∀ {edit : Edit α}, s.edits.get? v = some edit →
      (({ s with edits := s.edits.erase v } : Solver α).removeConstraint
        edit.constraint.id).state.tableau.Stores K := by
    intro edit hFound
    have hErased : ({ s with edits := s.edits.erase v } : Solver α).tableau.Stores K := h
    rw [operationSteps_removeEditVariable hFound] at hSteps
    exact stores_removeConstraint hErased hSteps
  have hRetires := s.retires v
  generalize s.removeEditVariable v = a at hRetires
  cases hRetires with
  | unknown _ => exact h
  | forgotten hFound hRemoval =>
    have hEnd := hRemoved hFound
    rwa [hRemoval] at hEnd
  | removed hFound hRemoval _ =>
    have hEnd := hRemoved hFound
    rwa [hRemoval] at hEnd

theorem stores_suggestValue (h : s.tableau.Stores K) (v : Variable) (x : α)
    (hSteps : K.Outlasts (s.suggestionSteps v x)) :
    (s.suggestValue v x).state.tableau.Stores K := by
  have hMoved : ∀ {edit : Edit α} {t : Tableau α} {result : Except Breakdown Unit},
      s.edits.get? v = some edit →
      (s.tableau.shiftEdit edit.tag (x - edit.value)).dualOptimize s.pivotLimit = ⟨result, t⟩ →
      Scalar.isFinite x = true → (x - edit.value == 0) = false → t.Stores K := by
    intro edit t result hFound hPass hFinite hMoves
    rw [suggestionSteps_of_moves hFound hFinite hMoves] at hSteps
    have hEnd := (h.shiftEdit edit.tag (x - edit.value)).dualOptimize hSteps
    rwa [hPass] at hEnd
  have hSuggests := s.suggests v x
  generalize s.suggestValue v x = a at hSuggests
  cases hSuggests with
  | unknown _ => exact h
  | notFinite _ _ => exact h
  | same _ _ => exact h
  | moved hFound hPass hFinite hMoves => exact (hMoved hFound hPass hFinite hMoves).mono rfl rfl
  | broken hFound hPass hFinite hMoves => exact (hMoved hFound hPass hFinite hMoves).mono rfl rfl

end Operations

section Runs

theorem stores_withPivotLimit (limit : Nat) : (withPivotLimit limit : Solver α).tableau.Stores K := by
  constructor
  · intro e he
    cases he
  · intro e he
    cases he

variable [EvenTolerance α]

theorem stores_perform (h : s.tableau.Stores K) (op : Operation α)
    (hSteps : K.Outlasts (s.operationSteps op)) : (s.perform op).2.tableau.Stores K := by
  cases op with
  | addConstraint c => exact stores_insertConstraint h hSteps
  | addConstraints cs => exact stores_addConstraints h hSteps
  | removeConstraint id => exact stores_removeConstraint h hSteps
  | addEditVariable v w id => exact stores_addEditVariable h v w id hSteps
  | removeEditVariable v => exact stores_removeEditVariable h v hSteps
  | suggestValue v x => exact stores_suggestValue h v x hSteps
  | fetchChanges => exact h
  | nameVariable v name => exact h
  | reset => exact stores_withPivotLimit s.pivotLimit

/-- A rule that outlasts the steps of a run holds of the cells after it. -/
theorem stores_run (h : s.tableau.Stores K) {ops : List (Operation α)}
    (hSteps : K.Outlasts (s.runSteps ops)) : (s.run ops).2.tableau.Stores K := by
  induction ops generalizing s with
  | nil => exact h
  | cons op rest ih =>
    obtain ⟨hFirst, hThen⟩ := CellRule.outlasts_append.mp hSteps
    exact ih (stores_perform h op hFirst) hThen

/-- The cells after a run are the cells of the rules that its solvings keep. -/
theorem stores_reached {limit : Nat} {ops : List (Operation α)}
    (hSolves : ∀ p ∈ (withPivotLimit limit : Solver α).runSolvings ops, K.Solves p) :
    (reached limit ops : Solver α).tableau.Stores K :=
  stores_run (stores_withPivotLimit limit) hSolves

end Runs

end Solver

namespace CellRule

/-- No cell is negligible. -/
def significant (α : Type) [Scalar α] : CellRule α := ⟨fun _ => Significant, fun _ _ he => he⟩

/-- A cell is not negligible, or solving a row for the basic symbol has left it. -/
def leftBy {α : Type} [Scalar α] (solvings : List (Symbol × Row α)) : CellRule α where
  holds n e := Significant e ∨ ∃ p ∈ solvings, p.1.id = n ∧ e ∈ (p.2.solveFor p.1).cells.entries
  admits _ _ he := .inl he

theorem solves_leftBy {α : Type} [Scalar α] {solvings : List (Symbol × Row α)} {p : Symbol × Row α}
    (hp : p ∈ solvings) : (leftBy solvings).Solves p :=
  fun _ _ _ he => .inr ⟨p, hp, rfl, he⟩

end CellRule

namespace Tolerant

/-- At least the tolerance away from zero. -/
def Sizeable (v : Tolerant) : Prop := v ≤ -tolerance ∨ tolerance ≤ v

instance decidableSizeable (v : Tolerant) : Decidable (Sizeable v) :=
  inferInstanceAs (Decidable (v ≤ -tolerance ∨ tolerance ≤ v))

theorem not_negligible_iff_abs {v : Rat} :
    Scalar.negligible (ofRat v) = false ↔ 1 / 10 ^ 8 ≤ |v| := by
  rw [Bool.eq_false_iff, Ne, negligible_iff, ← abs_lt, not_lt]

theorem sizeable_iff_abs {v : Rat} : Sizeable (ofRat v) ↔ 1 / 10 ^ 8 ≤ |v| := by
  have hAbs : v ≤ -(1 / 10 ^ 8) ∨ 1 / 10 ^ 8 ≤ v ↔ 1 / 10 ^ 8 ≤ |v| := le_abs'.symm
  exact hAbs

theorem sizeable_of_significant {e : Symbol × Tolerant} (h : Significant e) : Sizeable e.2 :=
  sizeable_iff_abs.mpr (not_negligible_iff_abs.mp h)

instance : EvenTolerance Tolerant where
  negligible_of_neg {a} h := by
    have hEven : ∀ v : Rat, Scalar.negligible (ofRat v) = false →
        Scalar.negligible (ofRat (-v)) = false := by
      intro v hv
      rw [not_negligible_iff_abs, abs_neg]
      exact not_negligible_iff_abs.mp hv
    by_contra hNot
    cases h.symm.trans (hEven a (Bool.eq_false_iff.mpr hNot))

/-- Dividing by at most one leaves a value at its size or makes it larger. -/
theorem le_abs_solved {ε a c : Rat} (hUnit : -1 ≤ c ∧ c ≤ 1) (hCell : c ≠ 0) (ha : ε ≤ |a|) :
    ε ≤ |a * (-1 / c)| := by
  have hGrows : 1 ≤ 1 / |c| := one_le_one_div (abs_pos.mpr hCell) (abs_le.mpr hUnit)
  calc
    ε ≤ |a| := ha
    _ ≤ |a| * (1 / |c|) := le_mul_of_one_le_right (abs_nonneg a) hGrows
    _ = |a * (-1 / c)| := by rw [abs_mul, abs_div, abs_neg, abs_one]

theorem ne_zero_of_significant {e : Symbol × Tolerant} (h : Significant e) : e.2 ≠ 0 := by
  intro hZero
  have hSmall : Scalar.negligible (0 : Tolerant) = true := by decide +kernel
  rw [Significant, hZero] at h
  cases hSmall.symm.trans h

/-- No cell is zero. -/
def nonzeroCells : CellRule Tolerant := ⟨fun _ e => e.2 ≠ 0, fun _ _ => ne_zero_of_significant⟩

theorem solves_nonzeroCells (p : Symbol × Row Tolerant) : nonzeroCells.Solves p := by
  intro n h e he
  rcases Row.mem_cells_solveFor he with ⟨_, he⟩ | ⟨c, hGet, d, hd, rfl⟩
  · exact h e he
  · obtain ⟨x, _, hx⟩ := SymbolMap.exists_mem_of_get? hGet
    have hQuotient : ∀ {a c : Rat}, a ≠ 0 → c ≠ 0 → a * (-1 / c) ≠ 0 := by
      intro a c ha hc
      exact mul_ne_zero ha (div_ne_zero (by norm_num) hc)
    exact hQuotient (h d hd) (h _ hx)

theorem solves_significant {p : Symbol × Row Tolerant}
    (hUnit : -1 ≤ p.2.coefficient p.1 ∧ p.2.coefficient p.1 ≤ 1) :
    (CellRule.significant Tolerant).Solves p := by
  intro n h e he
  rcases Row.mem_cells_solveFor he with ⟨_, he⟩ | ⟨c, hGet, d, hd, rfl⟩
  · exact h e he
  · obtain ⟨x, _, hx⟩ := SymbolMap.exists_mem_of_get? hGet
    have hCell : p.2.coefficient p.1 = c := by
      rw [Row.coefficient, hGet, Option.getD_some]
    rw [hCell] at hUnit
    exact not_negligible_iff_abs.mpr (le_abs_solved hUnit (ne_zero_of_significant (h _ hx))
      (not_negligible_iff_abs.mp (h d hd)))

end Tolerant

open Tolerant

namespace Solver

/-- After every run, whatever its operations answer: the cells of the objective are at least the tolerance
away from zero. A cell of a row is not zero, and it is as far from zero, or solving a row for the row's
symbol has left it just so. A run that divides by at most one in size stores no smaller cell. -/
theorem stored_cells_of_run (limit : Nat) (ops : List (Operation Tolerant)) :
    let t := (reached limit ops : Solver Tolerant).tableau
    let solvings := (withPivotLimit limit : Solver Tolerant).runSolvings ops
    (∀ c ∈ t.objective.cells.entries, Sizeable c.2) ∧
    (∀ e ∈ t.rows.entries, ∀ c ∈ e.2.cells.entries, c.2 ≠ 0 ∧
      (Sizeable c.2 ∨
        ∃ p ∈ solvings, p.1.id = e.1.id ∧ c ∈ (p.2.solveFor p.1).cells.entries)) ∧
    ((∀ p ∈ solvings, -1 ≤ p.2.coefficient p.1 ∧ p.2.coefficient p.1 ≤ 1) →
      ∀ e ∈ t.rows.entries, ∀ c ∈ e.2.cells.entries, Sizeable c.2) := by
  intro t solvings
  have hLeft : t.Stores (.leftBy solvings) := stores_reached fun _ hp => CellRule.solves_leftBy hp
  have hNonzero : t.Stores nonzeroCells := stores_reached fun p _ => solves_nonzeroCells p
  refine ⟨fun c hc => sizeable_of_significant (hLeft.objective c hc), fun e he c hc => ?_,
    fun hUnits e he c hc => ?_⟩
  · exact ⟨hNonzero.rows e he c hc, (hLeft.rows e he c hc).imp_left sizeable_of_significant⟩
  · have hKept : t.Stores (.significant Tolerant) :=
      stores_reached fun p hp => solves_significant (hUnits p hp)
    exact sizeable_of_significant (hKept.rows e he c hc)

/-- The `2 ^ 27`-fold of a first number is a second one. -/
def coarseEquation : List (Operation Tolerant) :=
  [.addConstraint (.make 1 ⟨[⟨⟨1⟩, ofRat (2 ^ 27)⟩, ⟨⟨2⟩, ofRat (-1)⟩], 0⟩ .equal .required)]

/-- Two numbers that add up to ten, of which the first one is moved to four. The second one must be at
least seven. -/
def evenSplit : List (Operation Tolerant) :=
  [.addConstraint (.make 1 ⟨[⟨⟨1⟩, 1⟩, ⟨⟨2⟩, 1⟩], ofRat (-10)⟩ .equal .required),
    .addEditVariable ⟨1⟩ ⟨ofRat 1000000⟩ 2,
    .suggestValue ⟨1⟩ (ofRat 4),
    .addConstraint (.make 3 ⟨[⟨⟨2⟩, 1⟩], ofRat (-7)⟩ .greaterOrEqual .required)]

theorem stored_cells_of_coarseEquation :
    (withPivotLimit 10000 : Solver Tolerant).RunsThrough coarseEquation ∧
    (∀ e ∈ (reached 10000 coarseEquation).tableau.rows.entries, ∀ c ∈ e.2.cells.entries,
      Sizeable c.2 ∨ e.1.id = 1 ∧ (c.2 = ofRat (1 / 2 ^ 27) ∨ c.2 = ofRat (-1 / 2 ^ 27))) ∧
    ((withPivotLimit 10000 : Solver Tolerant).runSolvings evenSplit).length = 3 ∧
    ∀ e ∈ (reached 10000 evenSplit).tableau.rows.entries, ∀ c ∈ e.2.cells.entries, Sizeable c.2 := by
  have hSolving : ∀ p ∈ (withPivotLimit 10000 : Solver Tolerant).runSolvings coarseEquation,
      p.1.id = 1 ∧ ∀ c ∈ (p.2.solveFor p.1).cells.entries,
        c.2 = ofRat (1 / 2 ^ 27) ∨ c.2 = ofRat (-1 / 2 ^ 27) := by
    decide +kernel
  have hUnits : ∀ p ∈ (withPivotLimit 10000 : Solver Tolerant).runSolvings evenSplit,
      -1 ≤ p.2.coefficient p.1 ∧ p.2.coefficient p.1 ≤ 1 := by
    decide +kernel
  obtain ⟨_, hRows, _⟩ := stored_cells_of_run 10000 coarseEquation
  obtain ⟨_, _, hSizeable⟩ := stored_cells_of_run 10000 evenSplit
  refine ⟨by decide +kernel, fun e he c hc => ?_, by decide +kernel, hSizeable hUnits⟩
  rcases (hRows e he c hc).2 with hLarge | ⟨p, hp, hId, hLeft⟩
  · exact .inl hLarge
  · obtain ⟨hOne, hCells⟩ := hSolving p hp
    exact .inr ⟨hId ▸ hOne, hCells c hLeft⟩

/-- The row of the first number keeps two cells below the tolerance, and nothing has broken down. -/
theorem not_forall_cells_sizeable :
    ¬ ∀ ops : List (Operation Tolerant), (withPivotLimit 10000 : Solver Tolerant).RunsThrough ops →
      (∀ e ∈ (reached 10000 ops).tableau.rows.entries, ∀ c ∈ e.2.cells.entries, Sizeable c.2) ∧
        ∀ c ∈ (reached 10000 ops).tableau.objective.cells.entries, Sizeable c.2 := by
  intro hAll
  have hSmall : ∃ e ∈ (reached 10000 coarseEquation).tableau.rows.entries,
      ∃ c ∈ e.2.cells.entries, ¬ Sizeable c.2 := by
    decide +kernel
  obtain ⟨e, he, c, hc, hNot⟩ := hSmall
  exact hNot ((hAll coarseEquation (by decide +kernel)).1 e he c hc)

end Solver

end SoftSimplex
