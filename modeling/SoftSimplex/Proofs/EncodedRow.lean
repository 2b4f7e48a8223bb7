import SoftSimplex.Proofs.ConstraintColumns
import SoftSimplex.Proofs.SolutionSet
import SoftSimplex.Proofs.VariableIndex
import SoftSimplex.Solver.Encoding
import SoftSimplex.Solver.Removal

/-!
# The row of a constraint is its equation

At every solution of the tableau the row of a new constraint has the value of the constraint's
equation, or the opposite value. The draft adds term by term; the variables that it tracks so far
keep their symbols, so what it has added stays what it was. A release gives the references back in the
same order.
-/

namespace SoftSimplex
set_option autoImplicit false

variable {issued old : Set Symbol} {s : Solver Rat} {k : Rat} {m : Multiset Variable}
  {done : List (Term Rat)} {d : Draft Rat} {a : Nat → Rat}

/-- A draft after some of the terms, measured against the solver that it starts from. -/
structure Drafted (issued : Set Symbol) (s : Solver Rat) (k : Rat) (m : Multiset Variable)
    (done : List (Term Rat)) (d : Draft Rat) : Prop where
  later : s.lastSymbol ≤ d.lastSymbol
  numbered : Numbered issued d.lastSymbol
  named : d.tracked.Named issued
  held : s.tracked.Extends d.tracked
  counts : d.tracked.Counts (m + mentions done)
  columns : d.row.AllColumns fun c => c ∈ issued ∧ ∀ b ∈ s.tableau.rows.keys, c.id ≠ b.id
  reduced : d.row.Reduced
  value : ∀ a, s.tableau.Satisfies a →
    d.row.value a = k + (done.map (Term.value (d.tracked.valuation a))).sum

/-- The term of a variable, read off the rows: the variable's own column or its basic row. -/
def termRow {α : Type} [Scalar α] (rows : SymbolMap (Row α)) (r : Row α) (x : Symbol) (q : α) :
    Row α :=
  match rows.get? x with
  | some basic => r.addRow basic q
  | none => r.addSymbol x q

theorem value_termRow {t : Tableau Rat} (hSat : t.Satisfies a) (r : Row Rat) (x : Symbol) (q : Rat) :
    (termRow t.rows r x q).value a = r.value a + q * a x.id := by
  rw [termRow]
  split
  · rename_i basic hGet
    obtain ⟨u, hId, hu⟩ := SymbolMap.exists_mem_of_get? hGet
    rw [Row.value_addRow, ← hSat _ hu, hId]
  · exact Row.value_addSymbol ..

theorem columns_termRow {α : Type} [Scalar α] {t : Tableau α} (h : t.Solved issued) {r : Row α}
    {x : Symbol} {q : α} (hx : x ∈ issued)
    (hr : r.AllColumns fun c => c ∈ issued ∧ ∀ b ∈ t.rows.keys, c.id ≠ b.id) :
    (termRow t.rows r x q).AllColumns fun c => c ∈ issued ∧ ∀ b ∈ t.rows.keys, c.id ≠ b.id := by
  rw [termRow]
  split
  · rename_i basic hGet
    obtain ⟨u, _, hu⟩ := SymbolMap.exists_mem_of_get? hGet
    exact hr.addRow fun c hc => ⟨h.columns.rows _ hu c hc, fun b hb => (h.nonbasic b hb).rows _ hu c hc⟩
  · rename_i hGet
    exact hr.addSymbol ⟨hx, fun b hb => (SymbolMap.get?_eq_none_iff.mp hGet b hb).symm⟩

theorem reduced_termRow {rows : SymbolMap (Row Rat)} {r : Row Rat} {x : Symbol} {q : Rat}
    (hr : r.Reduced) : (termRow rows r x q).Reduced := by
  rw [termRow]
  split
  · exact hr.addRow
  · exact hr.addSymbol

theorem Tableau.unweigh_eq {α : Type} [Scalar α] (t : Tableau α) (w : α) (x : Symbol) :
    t.unweigh w x = { t with objective := termRow t.rows t.objective x (-w) } := by
  unfold Tableau.unweigh termRow
  cases t.rows.get? x <;> rfl

/-- Forgetting the weight of a constraint changes the objective only. -/
theorem Tableau.forget_eq {α : Type} [Scalar α] (t : Tableau α) (live : LiveConstraint α) :
    ∃ objective, t.forget live = { t with objective } := by
  rw [Tableau.forget]
  generalize live.tag.errors = errors
  induction errors generalizing t with
  | nil => exact ⟨t.objective, rfl⟩
  | cons x rest ih =>
    obtain ⟨objective, hRest⟩ := ih (t.unweigh live.constraint.strength.value x)
    exact ⟨objective, hRest.trans (by rw [Tableau.unweigh_eq])⟩

namespace Draft

section AnyArithmetic

variable {α : Type} [Scalar α] {e : Draft α} {rows : SymbolMap (Row α)} {term : Term α}

theorem addTerm_of_negligible (h : Scalar.negligible term.coefficient = true) :
    e.addTerm rows term = e := by
  rw [addTerm, if_pos h]

theorem addTerm_of_not_negligible (h : Scalar.negligible term.coefficient = false) :
    e.addTerm rows term =
      let taken := e.tracked.acquire term.var e.lastSymbol
      ⟨termRow rows e.row taken.1 term.coefficient, taken.2.1, taken.2.2⟩ := by
  unfold addTerm termRow
  refine (if_neg (by simp [h])).trans ?_
  cases rows.get? (e.tracked.acquire term.var e.lastSymbol).1 <;> rfl

end AnyArithmetic

theorem addTerm_of_zero {rows : SymbolMap (Row Rat)} {term : Term Rat} (h : term.coefficient = 0) :
    d.addTerm rows term = d := by
  exact addTerm_of_negligible (beq_iff_eq.mpr h)

theorem addTerm_of_ne_zero {rows : SymbolMap (Row Rat)} {term : Term Rat}
    (h : term.coefficient ≠ 0) : d.addTerm rows term =
      let taken := d.tracked.acquire term.var d.lastSymbol
      ⟨termRow rows d.row taken.1 term.coefficient, taken.2.1, taken.2.2⟩ := by
  exact addTerm_of_not_negligible (beq_eq_false_iff_ne.mpr h)

end Draft

theorem Drafted.addTerm (h : Drafted issued s k m done d) (hSolved : s.tableau.Solved issued)
    (term : Term Rat) : ∃ more, issued ⊆ more ∧
      Drafted more s k m (done ++ [term]) (d.addTerm s.tableau.rows term) := by
  by_cases hZero : term.coefficient = 0
  · refine ⟨issued, subset_rfl, ?_⟩
    rw [Draft.addTerm_of_zero hZero]
    refine { h with counts := ?_, value := fun a hSat => ?_ }
    · rw [mentions_append, mentions_cons_of_negligible (beq_iff_eq.mpr hZero)]
      exact (List.append_nil (mentions done)).symm ▸ h.counts
    · rw [h.value a hSat, List.map_append, List.sum_append]
      simp [Term.value, hZero]
  · rw [Draft.addTerm_of_ne_zero hZero]
    dsimp only
    have hSubset := Set.subset_insert (d.tracked.acquire term.var d.lastSymbol).1 issued
    have hMentions : m + (mentions (done ++ [term]) : Multiset Variable) =
        term.var ::ₘ (m + mentions done) := by
      rw [mentions_append, mentions_cons_of_not_negligible (beq_eq_false_iff_ne.mpr hZero),
        ← Multiset.coe_add, ← add_assoc, add_comm]
      exact Multiset.singleton_add _ _
    refine ⟨_, hSubset, ?_⟩
    refine ⟨h.later.trans VariableTable.le_acquire, VariableTable.numbered_acquire h.numbered h.named,
      VariableTable.named_acquire h.numbered h.named,
      h.held.trans VariableTable.extends_acquire, ?_,
      columns_termRow (hSolved.weaken hSubset) (Set.mem_insert _ _)
        (h.columns.imp fun _ hc => ⟨hSubset hc.1, hc.2⟩), reduced_termRow h.reduced,
      fun a hSat => ?_⟩
    · rw [hMentions]
      exact h.counts.acquire
    · -- What has been added so far is valued as before, because its variables are tracked.
      have hOld : (done.map (Term.value ((d.tracked.acquire term.var d.lastSymbol).2.1.valuation a))).sum
          = (done.map (Term.value (d.tracked.valuation a))).sum :=
        sum_terms_congr fun v hv => VariableTable.extends_acquire.valuation h.counts
          (Multiset.mem_add.mpr (.inr (Multiset.mem_coe.mpr hv)))
      have hNew : (d.tracked.acquire term.var d.lastSymbol).2.1.valuation a term.var =
          a (d.tracked.acquire term.var d.lastSymbol).1.id := by
        refine VariableTable.valuation_of_symbol? ?_
        rw [VariableTable.symbol?_acquire, if_pos rfl]
      rw [value_termRow hSat, h.value a hSat, List.map_append, List.sum_append, hOld, List.map_cons,
        List.map_nil, List.sum_cons, List.sum_nil, Term.value, hNew]
      ring

theorem Drafted.foldl (h : Drafted issued s k m done d) (hSolved : s.tableau.Solved issued)
    (terms : List (Term Rat)) : ∃ more, issued ⊆ more ∧
      Drafted more s k m (done ++ terms) (terms.foldl (Draft.addTerm s.tableau.rows) d) := by
  induction terms generalizing issued done d with
  | nil => exact ⟨issued, subset_rfl, by simpa using h⟩
  | cons term rest ih =>
    obtain ⟨more, hMore, hNext⟩ := h.addTerm hSolved term
    obtain ⟨most, hMost, hAll⟩ := ih hNext (hSolved.weaken hMore)
    exact ⟨most, hMore.trans hMost, by simpa using hAll⟩

theorem drafted_draft (hNumbered : Numbered issued s.lastSymbol) (hNamed : s.tracked.Named issued)
    (hCounts : s.tracked.Counts m) (hSolved : s.tableau.Solved issued) (c : Constraint Rat) :
    ∃ more, issued ⊆ more ∧
      Drafted more s c.expression.constant m c.expression.terms (s.draft c) := by
  have hStart : Drafted issued s c.expression.constant m []
      ⟨⟨c.expression.constant, ∅⟩, s.tracked, s.lastSymbol⟩ :=
    ⟨le_rfl, hNumbered, hNamed, .refl _, by simpa [mentions] using hCounts,
      Row.allColumns_of_cells _, Row.reduced_of_constant _, fun a _ => by simp [Row.value]; rfl⟩
  exact hStart.foldl hSolved c.expression.terms

theorem Row.coefficient_foldl_of_ne {items : List (Symbol × Rat)} {r : Row Rat} {x : Symbol}
    (h : ∀ e ∈ items, e.1.id ≠ x.id) :
    (items.foldl (fun r e => r.addSymbol e.1 e.2) r).coefficient x = r.coefficient x := by
  induction items generalizing r with
  | nil => rfl
  | cons e rest ih =>
    rw [List.foldl_cons, ih fun d hd => h d (List.mem_cons_of_mem _ hd), Row.coefficient_addSymbol,
      if_neg (h e List.mem_cons_self), add_zero]

theorem Row.coefficient_foldl_of_mem {items : List (Symbol × Rat)} {r : Row Rat} {e : Symbol × Rat}
    (hNodup : (items.map fun e => e.1.id).Nodup) (he : e ∈ items) :
    (items.foldl (fun r e => r.addSymbol e.1 e.2) r).coefficient e.1 = r.coefficient e.1 + e.2 := by
  induction items generalizing r with
  | nil => cases he
  | cons d rest ih =>
    obtain ⟨hNew, hRest⟩ := List.nodup_cons.mp hNodup
    rw [List.foldl_cons]
    rcases List.mem_cons.mp he with rfl | he
    · have hOthers : ∀ x ∈ rest, x.1.id ≠ e.1.id := fun x hx hId =>
        hNew (List.mem_map.mpr ⟨x, hx, hId⟩)
      rw [Row.coefficient_foldl_of_ne hOthers, Row.coefficient_addSymbol, if_pos rfl]
    · have hne : d.1.id ≠ e.1.id := fun hId => hNew (List.mem_map.mpr ⟨e, he, hId.symm⟩)
      rw [ih hRest he, Row.coefficient_addSymbol, if_neg hne, add_zero]

theorem Numbered.union_symbols {α : Type} [Scalar α] {last : Nat} (h : Numbered issued last)
    (c : Constraint α) :
    Numbered (issued ∪ {x | x ∈ (Tag.ofConstraint c last).symbols})
      (last + (Tag.ofConstraint c last).symbols.length) where
  distinct := by
    rintro x (hx | hx) y (hy | hy) hId
    · exact h.distinct hx hy hId
    · have hBound := h.bound x hx
      have hAbove := (Tag.symbols_ofConstraint hy).1
      omega
    · have hBound := h.bound y hy
      have hAbove := (Tag.symbols_ofConstraint hx).1
      omega
    · exact List.inj_on_of_nodup_map Tag.nodup_symbols_ofConstraint hx hy hId
  bound := by
    rintro x (hx | hx)
    · exact (h.bound x hx).trans (Nat.le_add_right _ _)
    · exact (Tag.symbols_ofConstraint hx).2.1
  valid := by
    rintro x (hx | hx)
    · exact h.valid x hx
    · exact Tag.isInvalid_ofConstraint hx

section EncodedColumns

variable {α : Type} [Scalar α] {c : Constraint α} {solver : Solver α}

theorem Tag.keys_cells (tag : Tag) (c : Constraint α) :
    (tag.cells c).map (fun e => e.1.id) = tag.symbols.map Symbol.id := by
  simp [Tag.cells, Tag.symbols, Function.comp_def]

/-- The row of a constraint before its sign is settled. -/
def rawRow (s : Solver α) (c : Constraint α) : Row α :=
  ((Tag.ofConstraint c (s.draft c).lastSymbol).cells c).foldl (fun r e => r.addSymbol e.1 e.2)
    (s.draft c).row

theorem encode_row (s : Solver α) (c : Constraint α) : (s.encode c).1 =
    if (rawRow s c).constant < 0 then (rawRow s c).reverseSign else rawRow s c := rfl

theorem Numbered.columns_new {last : Nat} (h : Numbered issued last) {x : Symbol}
    (hx : x ∈ (Tag.ofConstraint c last).symbols) : ∀ y ∈ issued, y.id ≠ x.id := by
  intro y hy
  have hBound := h.bound y hy
  have hAbove := (Tag.symbols_ofConstraint hx).1
  omega

variable (hNumbered : Numbered issued (solver.draft c).lastSymbol)
include hNumbered

theorem columns_rawRow
    (hRow : (solver.draft c).row.AllColumns fun x =>
      x ∈ issued ∧ ∀ b ∈ solver.tableau.rows.keys, x.id ≠ b.id)
    (hKeys : ∀ b ∈ solver.tableau.rows.keys, b ∈ issued) :
    (rawRow solver c).AllColumns fun x =>
      x ∈ issued ∪ {x | x ∈ (Tag.ofConstraint c (solver.draft c).lastSymbol).symbols} ∧
        ∀ b ∈ solver.tableau.rows.keys, x.id ≠ b.id := by
  refine Row.AllColumns.foldl_addSymbol Prod.fst Prod.snd _
    (hRow.imp fun _ hx => ⟨.inl hx.1, hx.2⟩) fun e he => ?_
  have hx := Tag.mem_cells he
  exact ⟨.inr hx, fun b hb => (hNumbered.columns_new hx b (hKeys b hb)).symm⟩

theorem columns_encode
    (hRow : (solver.draft c).row.AllColumns fun x =>
      x ∈ issued ∧ ∀ b ∈ solver.tableau.rows.keys, x.id ≠ b.id)
    (hKeys : ∀ b ∈ solver.tableau.rows.keys, b ∈ issued) :
    (solver.encode c).1.AllColumns fun x =>
      x ∈ issued ∪ {x | x ∈ (Tag.ofConstraint c (solver.draft c).lastSymbol).symbols} ∧
        ∀ b ∈ solver.tableau.rows.keys, x.id ≠ b.id := by
  rw [encode_row]
  split
  · exact (columns_rawRow hNumbered hRow hKeys).mapCoefficients _
  · exact columns_rawRow hNumbered hRow hKeys

/-- The weights of a new constraint's errors bring no basic symbol into the objective. -/
theorem columns_encodedObjective (hSolved : solver.tableau.Solved issued) :
    (solver.encode c).2.2.tableau.objective.AllColumns fun x =>
      x ∈ issued ∪ {x | x ∈ (Tag.ofConstraint c (solver.draft c).lastSymbol).symbols} ∧
        ∀ b ∈ solver.tableau.rows.keys, x.id ≠ b.id := by
  refine Row.AllColumns.foldl_addSymbol id (fun _ => c.strength.value) _
    (fun x hx => ⟨.inl (hSolved.columns.objective x hx), fun b hb =>
      (hSolved.nonbasic b hb).objective x hx⟩) fun x hx => ?_
  have hx := Tag.mem_symbols_of_mem_errors hx
  exact ⟨.inr hx, fun b hb => (hNumbered.columns_new hx b (hSolved.keys b hb)).symm⟩

end EncodedColumns

/-- The row, the columns and the solver that a constraint's encoding leaves. -/
structure Encoded (issued more : Set Symbol) (s : Solver Rat) (m : Multiset Variable)
    (c : Constraint Rat) (row : Row Rat) (tag : Tag) (next : Solver Rat) : Prop where
  numbered : Numbered more next.lastSymbol
  named : next.tracked.Named more
  held : s.tracked.Extends next.tracked
  counts : next.tracked.Counts (m + mentions c.expression.terms)
  marks : tag.Marks c
  own : ∀ x ∈ tag.symbols, x ∈ more ∧ ∀ y ∈ issued, y.id ≠ x.id
  addable : s.tableau.Addable more row
  nonneg : 0 ≤ row.constant
  equation : ∃ σ : Rat, (σ = 1 ∨ σ = -1) ∧
    (∀ a, s.tableau.Satisfies a → row.value a =
      σ * (c.expression.value (next.tracked.valuation a) + tag.balance c a)) ∧
        ∀ e ∈ tag.cells c, row.coefficient e.1 = σ * e.2
  rows : next.tableau.rows = s.tableau.rows
  regular : next.tableau.Regular more
  objective : ∀ a, next.tableau.objective.value a =
    s.tableau.objective.value a + c.strength.value * tag.errorSum a
  objective_of_no_error : tag.errors = [] → next.tableau.objective = s.tableau.objective
  artificial : next.tableau.artificial = s.tableau.artificial
  queue : next.tableau.infeasible = s.tableau.infeasible
  constraints : next.constraints = s.constraints
  edits : next.edits = s.edits

section Encode

variable {c : Constraint Rat}

variable (hDraft : Drafted issued s c.expression.constant m c.expression.terms (s.draft c))
include hDraft

theorem Drafted.value_rawRow (hSat : s.tableau.Satisfies a) : (rawRow s c).value a =
    c.expression.value ((s.draft c).tracked.valuation a) +
      (Tag.ofConstraint c (s.draft c).lastSymbol).balance c a := by
  rw [rawRow, Row.value_foldl_addSymbol _ _ Prod.fst Prod.snd, hDraft.value a hSat]
  rfl

theorem Drafted.coefficient_rawRow {e : Symbol × Rat}
    (he : e ∈ (Tag.ofConstraint c (s.draft c).lastSymbol).cells c) :
    (rawRow s c).coefficient e.1 = e.2 := by
  have hNodup : (((Tag.ofConstraint c (s.draft c).lastSymbol).cells c).map fun e => e.1.id).Nodup := by
    rw [Tag.keys_cells]
    exact Tag.nodup_symbols_ofConstraint
  have hAvoids : (s.draft c).row.AllColumns fun x => x.id ≠ e.1.id :=
    hDraft.columns.imp fun x hx => hDraft.numbered.columns_new (Tag.mem_cells he) x hx.1
  rw [rawRow, Row.coefficient_foldl_of_mem hNodup he, Row.coefficient_of_avoids hAvoids, zero_add]

theorem Drafted.regular_encode (h : s.tableau.Regular issued) :
    (s.encode c).2.2.tableau.Regular
      (issued ∪ {x | x ∈ (Tag.ofConstraint c (s.draft c).lastSymbol).symbols}) := by
  have hMarks : (Tag.ofConstraint c (s.draft c).lastSymbol).Marks c := ⟨_, rfl⟩
  have hSolved := h.solved.weaken (Set.subset_union_left
    (t := {x | x ∈ (Tag.ofConstraint c (s.draft c).lastSymbol).symbols}))
  have hObjective := columns_encodedObjective hDraft.numbered h.solved
  refine ⟨⟨hSolved.keys, ⟨hSolved.columns.rows, hObjective.imp fun _ hx => hx.1,
    hSolved.columns.artificial⟩, fun b hb => ⟨(h.solved.nonbasic b hb).rows,
      hObjective.imp fun _ hx => hx.2 b hb, (h.solved.nonbasic b hb).artificial⟩⟩,
    ⟨h.reduced.rows, ?_, h.reduced.artificial⟩, ⟨h.separate.rows, ?_, h.separate.artificial⟩⟩
  · exact Row.Reduced.foldl_addSymbol id (fun _ => c.strength.value) _ h.reduced.objective
  · exact Row.AllColumns.foldl_addSymbol id (fun _ => c.strength.value) _ h.separate.objective
      fun x hx => hMarks.restricted (Tag.mem_symbols_of_mem_errors hx)

end Encode

theorem encoded_encode (hNumbered : Numbered issued s.lastSymbol) (hNamed : s.tracked.Named issued)
    (hCounts : s.tracked.Counts m) (h : s.tableau.Regular issued) (c : Constraint Rat) :
    ∃ more, issued ⊆ more ∧
      Encoded issued more s m c (s.encode c).1 (s.encode c).2.1 (s.encode c).2.2 := by
  obtain ⟨drafted, hSubset, hDraft⟩ := drafted_draft hNumbered hNamed hCounts h.solved c
  have hRegular : s.tableau.Regular drafted := ⟨h.solved.weaken hSubset, h.reduced, h.separate⟩
  have hReduced : (rawRow s c).Reduced := Row.Reduced.foldl_addSymbol _ _ _ hDraft.reduced
  refine ⟨_, hSubset.trans Set.subset_union_left,
    { numbered := hDraft.numbered.union_symbols c
      named := hDraft.named.mono Set.subset_union_left
      held := hDraft.held
      counts := hDraft.counts
      marks := ⟨_, rfl⟩
      own := fun x hx => ⟨.inr hx, fun y hy => hDraft.numbered.columns_new hx y (hSubset hy)⟩
      addable := ⟨?_, ?_⟩
      nonneg := ?_
      equation := ?_
      rows := rfl
      regular := hDraft.regular_encode hRegular
      objective := fun a => ?_
      objective_of_no_error := fun hNone => ?_
      artificial := rfl
      queue := rfl
      constraints := rfl
      edits := rfl }⟩
  · exact columns_encode hDraft.numbered hDraft.columns hRegular.solved.keys
  · rw [encode_row]
    split
    · exact hReduced.reverseSign
    · exact hReduced
  · rw [encode_row]
    split
    · rename_i hBelow
      exact neg_nonneg.mpr hBelow.le
    · rename_i hAbove
      exact not_lt.mp hAbove
  · rw [encode_row]
    split
    · refine ⟨-1, .inr rfl, fun a hSat => ?_, fun e he => ?_⟩
      · rw [Row.value_reverseSign, hDraft.value_rawRow hSat]
        exact (neg_one_mul _).symm
      · rw [Row.coefficient_reverseSign, hDraft.coefficient_rawRow he, neg_one_mul]
    · refine ⟨1, .inl rfl, fun a hSat => ?_, fun e he => ?_⟩
      · rw [hDraft.value_rawRow hSat]
        exact (one_mul _).symm
      · rw [hDraft.coefficient_rawRow he, one_mul]
  · refine (Row.value_foldl_addSymbol _ _ id (fun _ => c.strength.value) _).trans ?_
    rw [List.sum_map_mul_left]
    rfl
  · exact congrArg (List.foldl (fun r e => r.addSymbol e c.strength.value) s.tableau.objective) hNone

namespace Solver

variable {α : Type} [Scalar α]

/-- Giving back the references of a constraint marks every variable that it leaves untracked. -/
theorem release_eq_markAll (s : Solver α) (c : Constraint α) : ∃ dropped, s.release c =
    { s with
      tracked := s.tracked.releaseAll (mentions c.expression.terms)
      changes := s.changes.markAll dropped } ∧
    ∀ v, s.tracked.isTracked v = true →
      (s.tracked.releaseAll (mentions c.expression.terms)).isTracked v = true ∨
        v ∈ dropped := by
  rw [release]
  induction c.expression.terms generalizing s with
  | nil => exact ⟨[], rfl, fun v hv => .inl hv⟩
  | cons term rest ih =>
    cases hNegligible : Scalar.negligible term.coefficient with
    | true =>
      obtain ⟨dropped, hRelease, hTracked⟩ := ih s
      have hTerm : s.releaseTerm term = s := by
        rw [releaseTerm, if_pos hNegligible]
      rw [List.foldl_cons, hTerm, mentions_cons_of_negligible hNegligible]
      exact ⟨dropped, hRelease, hTracked⟩
    | false =>
      obtain ⟨dropped, hRelease, hTracked⟩ := ih (s.releaseTerm term)
      have hTerm : s.releaseTerm term = { s with
          tracked := (s.tracked.release term.var).2
          changes := if (s.tracked.release term.var).1 then s.changes.mark term.var
            else s.changes } := by
        rw [releaseTerm, if_neg (by simp [hNegligible])]
      rw [hTerm] at hRelease hTracked
      rw [List.foldl_cons, hTerm, mentions_cons_of_not_negligible hNegligible, hRelease]
      refine ⟨(if (s.tracked.release term.var).1 then [term.var] else []) ++ dropped, ?_,
        fun v hv => ?_⟩
      · cases (s.tracked.release term.var).1 <;> rfl
      · rcases VariableTable.isTracked_release (w := term.var) hv with hv | ⟨hLast, rfl⟩
        · exact (hTracked v hv).imp_right (List.mem_append_right _)
        · exact .inr (List.mem_append_left _ (by simp [hLast]))

end Solver

end SoftSimplex
