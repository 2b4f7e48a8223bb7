import SoftSimplex.Proofs.Renaming

/-!
# Renamed solvers

A solver is renamed by renaming its books, its published values and its change log; tableau, symbol
counter and pivot limit are left alone. Every operation commutes with that: it compares names and numbers
only with each other, and nothing that it computes depends on which they are.
-/

namespace SoftSimplex
set_option autoImplicit false

section Records

variable {α : Type} [Scalar α]

def LiveConstraint.rename (ρ : Renaming) (l : LiveConstraint α) : LiveConstraint α :=
  ⟨l.constraint.rename ρ.var ρ.id, l.tag⟩

def Edit.rename (ρ : Renaming) (e : Edit α) : Edit α :=
  { e with constraint := e.constraint.rename ρ.var ρ.id }

def Draft.rename (ρ : Renaming) (d : Draft α) : Draft α := { d with tracked := d.tracked.rename ρ }

def Solver.rename (ρ : Renaming) (s : Solver α) : Solver α :=
  { s with
    constraints := s.constraints.rename ρ.id_injective (LiveConstraint.rename ρ)
    edits := s.edits.rename ρ.var_injective (Edit.rename ρ)
    tracked := s.tracked.rename ρ
    published := s.published.rename ρ.var_injective id
    names := s.names.rename ρ.var_injective id
    changes := s.changes.rename ρ }

def Operation.rename (f : Variable → Variable) (g : Nat → Nat) : Operation α → Operation α
  | .addConstraint c => .addConstraint (c.rename f g)
  | .addConstraints cs => .addConstraints (cs.map (Constraint.rename f g))
  | .removeConstraint id => .removeConstraint (g id)
  | .addEditVariable v w id => .addEditVariable (f v) w (g id)
  | .removeEditVariable v => .removeEditVariable (f v)
  | .suggestValue v x => .suggestValue (f v) x
  | .fetchChanges => .fetchChanges
  | .nameVariable v name => .nameVariable (f v) name
  | .reset => .reset

def Reply.rename (f : Variable → Variable) (r : Reply α) : Reply α :=
  { r with changes := r.changes.map (Prod.map f id) }

end Records

namespace Solver

variable {α β : Type} [Scalar α] (ρ : Renaming) (s : Solver α) (c : Constraint α)

/-- The same answer, with the solver that it leaves behind renamed. -/
def renameState (a : Attempt SolverError β (Solver α)) : Attempt SolverError β (Solver α) :=
  ⟨a.result, a.state.rename ρ⟩

section Books

theorem hasConstraint_rename (id : Nat) :
    (s.rename ρ).hasConstraint (ρ.id id) = s.hasConstraint id :=
  Registry.contains_rename ρ.id_injective _ s.constraints id

theorem hasEditVariable_rename (v : Variable) :
    (s.rename ρ).hasEditVariable (ρ.var v) = s.hasEditVariable v :=
  Registry.contains_rename ρ.var_injective _ s.edits v

theorem constraintList_rename :
    (s.rename ρ).constraintList = s.constraintList.map (Constraint.rename ρ.var ρ.id) := by
  rw [constraintList, constraintList, rename, Registry.values_rename, List.map_map, List.map_map]
  rfl

theorem editVariables_rename : (s.rename ρ).editVariables = s.editVariables.map ρ.var :=
  Registry.keys_rename ρ.var_injective _ s.edits

theorem variableName?_rename (v : Variable) :
    (s.rename ρ).variableName? (ρ.var v) = s.variableName? v := by
  rw [variableName?, variableName?, rename, Registry.get?_rename, Option.map_id, id]

theorem getValue_rename (v : Variable) : (s.rename ρ).getValue (ρ.var v) = s.getValue v := by
  rw [getValue, getValue, rename, Registry.get?_rename, Option.map_id, id]

theorem solvedValue_rename (v : Variable) :
    (s.rename ρ).solvedValue (ρ.var v) = s.solvedValue v := by
  rw [solvedValue, solvedValue, show (s.rename ρ).tracked = s.tracked.rename ρ from rfl,
    VariableTable.get?_rename]
  rfl

end Books

section Release

theorem touchedVariables_rename (t : Tableau α) :
    (s.rename ρ).touchedVariables t = (s.touchedVariables t).map ρ.var := by
  rw [touchedVariables, touchedVariables, List.map_filterMap]
  exact List.filterMap_congr fun x _ => SymbolMap.get?_mapValues s.tracked.owners ρ.var x

theorem absorb_rename (t : Tableau α) : (s.rename ρ).absorb t = (s.absorb t).rename ρ := by
  have hChanges : (s.rename ρ).changes.markAll ((s.rename ρ).touchedVariables t) =
      (s.changes.markAll (s.touchedVariables t)).rename ρ := by
    rw [touchedVariables_rename]
    exact ChangeLog.markAll_rename ρ s.changes _
  rw [absorb, hChanges]
  rfl

theorem releaseTerm_rename (term : Term α) :
    (s.rename ρ).releaseTerm (term.rename ρ.var) = (s.releaseTerm term).rename ρ := by
  have hTracked : (s.rename ρ).tracked.release (ρ.var term.var) =
      ((s.tracked.release term.var).1, (s.tracked.release term.var).2.rename ρ) :=
    VariableTable.release_rename ρ s.tracked
  have hChanges : (s.rename ρ).changes.mark (ρ.var term.var) = (s.changes.mark term.var).rename ρ :=
    ChangeLog.mark_rename ρ s.changes term.var
  rw [releaseTerm, releaseTerm, Term.rename]
  dsimp only
  rw [hTracked, hChanges]
  split
  · rfl
  · cases (s.tracked.release term.var).1 <;> rfl

theorem release_rename :
    (s.rename ρ).release (c.rename ρ.var ρ.id) = (s.release c).rename ρ := by
  rw [release, release, c.expression_rename ρ, Expression.rename]
  dsimp only
  induction c.expression.terms generalizing s with
  | nil => rfl
  | cons term rest ih => rw [List.map_cons, List.foldl_cons, List.foldl_cons, releaseTerm_rename, ih]

end Release

section Addition

theorem addTerm_rename (rows : SymbolMap (Row α)) (d : Draft α) (term : Term α) :
    (d.rename ρ).addTerm rows (term.rename ρ.var) = (d.addTerm rows term).rename ρ := by
  have hTracked : (d.rename ρ).tracked.acquire (ρ.var term.var) d.lastSymbol = _ :=
    VariableTable.acquire_rename ρ d.tracked
  rw [Draft.addTerm, Draft.addTerm, Term.rename]
  dsimp only [Draft.rename] at hTracked ⊢
  rw [hTracked]
  split <;> rfl

theorem draft_rename : (s.rename ρ).draft (c.rename ρ.var ρ.id) = (s.draft c).rename ρ := by
  have hTerms : ∀ (terms : List (Term α)) (d : Draft α),
      (terms.map (Term.rename ρ.var)).foldl (Draft.addTerm s.tableau.rows) (d.rename ρ) =
        (terms.foldl (Draft.addTerm s.tableau.rows) d).rename ρ := by
    intro terms
    induction terms with
    | nil => exact fun d => rfl
    | cons term rest ih =>
      intro d
      rw [List.map_cons, List.foldl_cons, List.foldl_cons, addTerm_rename, ih]
  rw [draft, draft, c.expression_rename ρ]
  exact hTerms c.expression.terms ⟨⟨c.expression.constant, ∅⟩, s.tracked, s.lastSymbol⟩

theorem encode_rename : (s.rename ρ).encode (c.rename ρ.var ρ.id) =
    ((s.encode c).1, (s.encode c).2.1, (s.encode c).2.2.rename ρ) := by
  rw [encode, encode, draft_rename]
  rfl

theorem discard_rename (tag : Tag) :
    (s.rename ρ).discard (c.rename ρ.var ρ.id) tag = (s.discard c tag).rename ρ :=
  release_rename ρ ({ s with tableau := { s.tableau with
    objective := tag.errors.foldl Row.remove s.tableau.objective } } : Solver α) c

theorem insert_constraints_rename (tag : Tag) :
    (s.rename ρ).constraints.insert (ρ.id c.id) ⟨c.rename ρ.var ρ.id, tag⟩ =
      (s.constraints.insert c.id ⟨c, tag⟩).rename ρ.id_injective (LiveConstraint.rename ρ) :=
  Registry.insert_rename ρ.id_injective (LiveConstraint.rename ρ) s.constraints c.id ⟨c, tag⟩

theorem accept_rename (tag : Tag) :
    (s.rename ρ).accept (c.rename ρ.var ρ.id) tag = renameState ρ (s.accept c tag) := by
  have hRegister : ({ s.rename ρ with
      constraints := (s.rename ρ).constraints.insert (ρ.id c.id) ⟨c.rename ρ.var ρ.id, tag⟩ } :
        Solver α) =
      ({ s with constraints := s.constraints.insert c.id ⟨c, tag⟩ } : Solver α).rename ρ := by
    rw [insert_constraints_rename]
    rfl
  rw [accept, accept]
  dsimp only
  rw [show (c.rename ρ.var ρ.id).id = ρ.id c.id from rfl, hRegister]
  generalize ({ s with constraints := s.constraints.insert c.id ⟨c, tag⟩ } : Solver α) = next
  rw [show (s.rename ρ).tableau.settle (s.rename ρ).pivotLimit = s.tableau.settle s.pivotLimit from rfl]
  obtain ⟨cause | _, t⟩ := s.tableau.settle s.pivotLimit
  · exact congrArg (Attempt.failed _) (absorb_rename ρ next t)
  · exact congrArg (Attempt.done tag) (absorb_rename ρ next t)

theorem insertByPhaseOne_rename (tag : Tag) (row : Row α) :
    (s.rename ρ).insertByPhaseOne (c.rename ρ.var ρ.id) tag row =
      renameState ρ (s.insertByPhaseOne c tag row) := by
  have hRollBack : ∀ (next : Solver α) (t : Tableau α),
      (next.rename ρ).rollBack t = (next.rollBack t).rename ρ := fun next _ => absorb_rename ρ next _
  have hPass : (s.rename ρ).tableau.insertArtificially (s.rename ρ).pivotLimit
      ⟨.slack, (s.rename ρ).lastSymbol + 1⟩ row =
    s.tableau.insertArtificially s.pivotLimit ⟨.slack, s.lastSymbol + 1⟩ row := rfl
  have hCounter : ({ s.rename ρ with lastSymbol := (s.rename ρ).lastSymbol + 1 } : Solver α) =
      ({ s with lastSymbol := s.lastSymbol + 1 } : Solver α).rename ρ := rfl
  rw [insertByPhaseOne, insertByPhaseOne]
  dsimp only
  rw [hPass, hCounter]
  generalize ({ s with lastSymbol := s.lastSymbol + 1 } : Solver α) = next
  obtain ⟨cause | satisfied, t⟩ :=
    s.tableau.insertArtificially s.pivotLimit ⟨.slack, s.lastSymbol + 1⟩ row
  · dsimp only
    rw [hRollBack, discard_rename]
    rfl
  · cases satisfied with
    | false =>
      dsimp only
      rw [hRollBack, discard_rename]
      rfl
    | true =>
      dsimp only
      rw [absorb_rename, accept_rename]

theorem insertConstraint_rename : (s.rename ρ).insertConstraint (c.rename ρ.var ρ.id) =
    renameState ρ (s.insertConstraint c) := by
  have hHas : (s.rename ρ).hasConstraint (c.rename ρ.var ρ.id).id = s.hasConstraint c.id :=
    hasConstraint_rename ρ s c.id
  rw [insertConstraint, insertConstraint, hHas, encode_rename]
  cases s.hasConstraint c.id with
  | true => rfl
  | false =>
    dsimp only [Bool.false_eq_true, if_false]
    generalize s.encode c = code
    cases Placement.of code.1 code.2.1 with
    | basic subject =>
      dsimp only
      rw [absorb_rename, accept_rename]
      rfl
    | contradiction =>
      dsimp only
      rw [discard_rename]
      rfl
    | phaseOne => exact insertByPhaseOne_rename ρ code.2.2 c code.2.1 code.1

theorem addConstraint_rename : (s.rename ρ).addConstraint (c.rename ρ.var ρ.id) =
    renameState ρ (s.addConstraint c) := by
  rw [addConstraint, addConstraint, insertConstraint_rename]
  rfl

theorem addConstraints_rename (cs : List (Constraint α)) :
    (s.rename ρ).addConstraints (cs.map (Constraint.rename ρ.var ρ.id)) =
      renameState ρ (s.addConstraints cs) := by
  induction cs generalizing s with
  | nil => rfl
  | cons c rest ih =>
    rw [List.map_cons, addConstraints, addConstraints, addConstraint_rename]
    obtain ⟨e | _, next⟩ := s.addConstraint c
    · rfl
    · exact ih next

end Addition

section Removal

theorem retireEdit_rename (id : Nat) :
    (s.rename ρ).retireEdit (ρ.id id) = (s.retireEdit id).rename ρ := by
  have hEdits : (s.rename ρ).edits.filter (fun _ e => !(e.constraint.id == ρ.id id)) =
      (s.edits.filter fun _ e => !(e.constraint.id == id)).rename ρ.var_injective (Edit.rename ρ) :=
    Registry.filter_rename ρ.var_injective (Edit.rename ρ) s.edits fun _ e =>
      congrArg not (ρ.id_injective.beq_eq (a := e.constraint.id))
  rw [retireEdit, hEdits]
  rfl

theorem removeConstraint_rename (id : Nat) :
    (s.rename ρ).removeConstraint (ρ.id id) = renameState ρ (s.removeConstraint id) := by
  have hGet : (s.rename ρ).constraints.get? (ρ.id id) =
      (s.constraints.get? id).map (LiveConstraint.rename ρ) :=
    Registry.get?_rename ρ.id_injective _ s.constraints id
  rw [removeConstraint, removeConstraint, hGet]
  cases s.constraints.get? id with
  | none => rfl
  | some live =>
    have hErase : ∀ t, ({ s.rename ρ with
        constraints := (s.rename ρ).constraints.erase (ρ.id id), tableau := t } : Solver α) =
        ({ s with constraints := s.constraints.erase id, tableau := t } : Solver α).rename ρ := by
      intro t
      rw [show (s.rename ρ).constraints.erase (ρ.id id) = _ from
        Registry.erase_rename ρ.id_injective (LiveConstraint.rename ρ) s.constraints id]
      rfl
    have hForget : (s.rename ρ).tableau.forget (live.rename ρ) = s.tableau.forget live := rfl
    rw [Option.map_some]
    dsimp only
    rw [hForget, hErase, show (live.rename ρ).tag = live.tag from rfl,
      show (s.rename ρ).pivotLimit = s.pivotLimit from rfl]
    generalize ({ s with constraints := s.constraints.erase id, tableau := s.tableau.forget live } :
      Solver α) = next
    cases (s.tableau.forget live).dropMarker? live.tag.marker with
    | none => rfl
    | some t =>
      dsimp only
      obtain ⟨cause | _, u⟩ := t.settle s.pivotLimit
      · exact congrArg (Attempt.failed _) (absorb_rename ρ next u)
      · refine congrArg (Attempt.done ()) ?_
        rw [absorb_rename, show (live.rename ρ).constraint = live.constraint.rename ρ.var ρ.id from rfl,
          release_rename, retireEdit_rename]
        rfl

end Removal

section Editing

theorem editRefusal?_rename (v : Variable) (w : Strength α) :
    (s.rename ρ).editRefusal? (ρ.var v) w = s.editRefusal? v w := by
  rw [editRefusal?, editRefusal?, hasEditVariable_rename]

theorem insert_edits_rename (v : Variable) (edit : Edit α) :
    ({ s.rename ρ with edits := (s.rename ρ).edits.insert (ρ.var v) (edit.rename ρ) } : Solver α) =
      ({ s with edits := s.edits.insert v edit } : Solver α).rename ρ := by
  rw [show (s.rename ρ).edits.insert (ρ.var v) (edit.rename ρ) = _ from
    Registry.insert_rename ρ.var_injective (Edit.rename ρ) s.edits v edit]
  rfl

theorem get?_edits_rename (v : Variable) :
    (s.rename ρ).edits.get? (ρ.var v) = (s.edits.get? v).map (Edit.rename ρ) :=
  Registry.get?_rename ρ.var_injective _ s.edits v

theorem addEditVariable_rename (v : Variable) (w : Strength α) (id : Nat) :
    (s.rename ρ).addEditVariable (ρ.var v) w (ρ.id id) = renameState ρ (s.addEditVariable v w id) := by
  have hMake : Constraint.make (ρ.id id) (.ofVariable (ρ.var v)) .equal w =
      (Constraint.make id (.ofVariable v) .equal w).rename ρ.var ρ.id :=
    (Constraint.make_rename ρ id (.ofVariable v) .equal w).symm
  rw [addEditVariable, addEditVariable, editRefusal?_rename]
  cases s.editRefusal? v w with
  | some e => rfl
  | none =>
    dsimp only
    rw [hMake, insertConstraint_rename]
    obtain ⟨e | tag, next⟩ := s.insertConstraint (.make id (.ofVariable v) .equal w)
    · cases e <;> rfl
    · exact congrArg (Attempt.done ()) (insert_edits_rename ρ next v ⟨tag, _, 0⟩)

theorem removeEditVariable_rename (v : Variable) :
    (s.rename ρ).removeEditVariable (ρ.var v) = renameState ρ (s.removeEditVariable v) := by
  rw [removeEditVariable, removeEditVariable, get?_edits_rename]
  cases s.edits.get? v with
  | none => rfl
  | some edit =>
    have hErase : ({ s.rename ρ with edits := (s.rename ρ).edits.erase (ρ.var v) } : Solver α) =
        ({ s with edits := s.edits.erase v } : Solver α).rename ρ := by
      rw [show (s.rename ρ).edits.erase (ρ.var v) = _ from
        Registry.erase_rename ρ.var_injective (Edit.rename ρ) s.edits v]
      rfl
    rw [Option.map_some]
    dsimp only
    rw [hErase, show (edit.rename ρ).constraint.id = ρ.id edit.constraint.id from rfl,
      removeConstraint_rename]
    obtain ⟨e | _, next⟩ :=
      ({ s with edits := s.edits.erase v } : Solver α).removeConstraint edit.constraint.id
    · cases e <;> rfl
    · rfl

theorem suggestValue_rename (v : Variable) (x : α) :
    (s.rename ρ).suggestValue (ρ.var v) x = renameState ρ (s.suggestValue v x) := by
  rw [suggestValue, suggestValue, get?_edits_rename]
  cases s.edits.get? v with
  | none => rfl
  | some edit =>
    have hInsert : ({ s.rename ρ with
        edits := (s.rename ρ).edits.insert (ρ.var v) { edit.rename ρ with value := x } } : Solver α) =
        ({ s with edits := s.edits.insert v { edit with value := x } } : Solver α).rename ρ :=
      insert_edits_rename ρ s v { edit with value := x }
    have hShift : ((s.rename ρ).tableau.shiftEdit (edit.rename ρ).tag
        (x - (edit.rename ρ).value)).dualOptimize (s.rename ρ).pivotLimit =
      (s.tableau.shiftEdit edit.tag (x - edit.value)).dualOptimize s.pivotLimit := rfl
    rw [Option.map_some]
    dsimp only
    rw [hInsert, hShift, show (edit.rename ρ).value = edit.value from rfl]
    generalize ({ s with edits := s.edits.insert v { edit with value := x } } : Solver α) = next
    obtain ⟨cause | _, t⟩ :=
      (s.tableau.shiftEdit edit.tag (x - edit.value)).dualOptimize s.pivotLimit
    · dsimp only
      rw [absorb_rename]
      split
      · rfl
      · split <;> rfl
    · dsimp only
      rw [absorb_rename]
      split
      · rfl
      · split <;> rfl

end Editing

section Runs

theorem publish_rename (published : Registry Variable α) (change : Variable × α) :
    (s.rename ρ).publish (published.rename ρ.var_injective id) (change.map ρ.var id) =
      (s.publish published change).rename ρ.var_injective id := by
  have hTracked : (s.rename ρ).tracked.isTracked (ρ.var change.1) = s.tracked.isTracked change.1 :=
    VariableTable.isTracked_rename ρ s.tracked
  obtain ⟨v, x⟩ := change
  rw [publish, publish]
  show (if (x == 0 && !(s.rename ρ).tracked.isTracked (ρ.var v)) = true then
    (published.rename ρ.var_injective id).erase (ρ.var v)
    else (published.rename ρ.var_injective id).insert (ρ.var v) x) = _
  rw [hTracked]
  split
  · exact Registry.erase_rename ρ.var_injective id published v
  · exact Registry.insert_rename ρ.var_injective id published v x

theorem fetchChanges_rename : (s.rename ρ).fetchChanges =
    (s.fetchChanges.1.map (Prod.map ρ.var id), s.fetchChanges.2.rename ρ) := by
  have hCurrent : (s.rename ρ).changes.recording.map (fun v => (v, (s.rename ρ).solvedValue v + 0)) =
      (s.changes.recording.map fun v => (v, s.solvedValue v + 0)).map (Prod.map ρ.var id) := by
    rw [show (s.rename ρ).changes.recording = s.changes.recording.map ρ.var from rfl, List.map_map,
      List.map_map]
    refine List.map_congr_left fun v _ => ?_
    rw [Function.comp_apply, solvedValue_rename]
    rfl
  have hPublished : ∀ (current : List (Variable × α)) (published : Registry Variable α),
      (current.map (Prod.map ρ.var id)).foldl (s.rename ρ).publish
        (published.rename ρ.var_injective id) =
      (current.foldl s.publish published).rename ρ.var_injective id := by
    intro current
    induction current with
    | nil => exact fun _ => rfl
    | cons change rest ih =>
      intro published
      rw [List.map_cons, List.foldl_cons, List.foldl_cons, publish_rename, ih]
  have hReported : ∀ current : List (Variable × α),
      ((current.map (Prod.map ρ.var id)).filter fun c => !(c.2 == (s.rename ρ).getValue c.1)) =
        (current.filter fun c => !(c.2 == s.getValue c.1)).map (Prod.map ρ.var id) := by
    intro current
    rw [List.filter_map]
    congr 1
    refine List.filter_congr fun c _ => ?_
    show (!(c.2 == (s.rename ρ).getValue (ρ.var c.1))) = _
    rw [getValue_rename]
  rw [fetchChanges, fetchChanges, ChangeLog.close_eq, ChangeLog.close_eq]
  dsimp only
  rw [hCurrent, hReported, show (s.rename ρ).published = s.published.rename ρ.var_injective id from rfl,
    hPublished]
  rfl

theorem nameVariable_rename (v : Variable) (name : String) :
    (s.rename ρ).nameVariable (ρ.var v) name = (s.nameVariable v name).rename ρ := by
  rw [nameVariable, show (s.rename ρ).names.insert (ρ.var v) name = _ from
    Registry.insert_rename ρ.var_injective id s.names v name]
  rfl

theorem perform_rename (op : Operation α) :
    (s.rename ρ).perform (op.rename ρ.var ρ.id) =
      ((s.perform op).1.rename ρ.var, (s.perform op).2.rename ρ) := by
  have hAnswer : ∀ {a b : Attempt SolverError Unit (Solver α)}, b = renameState ρ a →
      answer b = ((answer a).1.rename ρ.var, (answer a).2.rename ρ) := by
    rintro a b rfl
    rfl
  cases op with
  | addConstraint c => exact hAnswer (addConstraint_rename ρ s c)
  | addConstraints cs => exact hAnswer (addConstraints_rename ρ s cs)
  | removeConstraint id => exact hAnswer (removeConstraint_rename ρ s id)
  | addEditVariable v w id => exact hAnswer (addEditVariable_rename ρ s v w id)
  | removeEditVariable v => exact hAnswer (removeEditVariable_rename ρ s v)
  | suggestValue v x => exact hAnswer (suggestValue_rename ρ s v x)
  | fetchChanges =>
    show (({ result := .ok (), changes := (s.rename ρ).fetchChanges.1 } : Reply α),
      (s.rename ρ).fetchChanges.2) = _
    rw [fetchChanges_rename]
    rfl
  | nameVariable v name =>
    show (({ result := .ok () } : Reply α), (s.rename ρ).nameVariable (ρ.var v) name) = _
    rw [nameVariable_rename]
    rfl
  | reset => rfl

theorem run_rename (ops : List (Operation α)) :
    (s.rename ρ).run (ops.map (Operation.rename ρ.var ρ.id)) =
      ((s.run ops).1.map (Reply.rename ρ.var), (s.run ops).2.rename ρ) := by
  induction ops generalizing s with
  | nil => rfl
  | cons op rest ih =>
    rw [List.map_cons, run, run, perform_rename]
    dsimp only
    rw [ih]
    rfl

end Runs

end Solver

end SoftSimplex
