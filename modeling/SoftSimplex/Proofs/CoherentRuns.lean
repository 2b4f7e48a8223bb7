import SoftSimplex.Proofs.CoherentInsertion
import SoftSimplex.Proofs.OperationEnds
import SoftSimplex.Proofs.SolverRuns

/-!
# Runs keep a solver coherent

Every operation leaves a coherent solver behind, whatever it answers and whatever the arithmetic is.
Only fetching and resetting close or drop the change log; all the others keep it.
-/

namespace SoftSimplex
set_option autoImplicit false

/-- Fetching and resetting are the operations that set what callers read. -/
def Operation.republishes {α : Type} [Scalar α] : Operation α → Bool
  | .fetchChanges => true
  | .reset => true
  | _ => false

namespace Solver

variable {α : Type} [Scalar α] {issued : Set Symbol} {s next after : Solver α} {v : Variable}
  {op : Operation α}

/-- An operation has come from a coherent solver to a coherent solver and has kept the log. -/
structure Advances (s next : Solver α) : Prop where
  coherent : ∃ issued, next.Coherent issued
  logs : Logs s next

theorem Advances.refl (h : s.Coherent issued) : Advances s s := ⟨⟨issued, h⟩, .refl s⟩

theorem Advances.trans (h : Advances s next) (hMore : Advances next after) : Advances s after :=
  ⟨hMore.coherent, h.logs.trans hMore.logs⟩

theorem Restores.advances (hRestores : Restores s next) (h : s.Coherent issued) :
    Advances s next :=
  ⟨⟨issued, hRestores.coherent h⟩, hRestores.logs⟩

section Removal

variable {live : LiveConstraint α} {id : Nat} {t : Tableau α}

theorem Coherent.unregister (h : s.Coherent issued) (id : Nat) :
    ({ s with constraints := s.constraints.erase id } : Solver α).Coherent issued := by
  have hSublist : (s.constraints.erase id).values.Sublist s.constraints.values :=
    List.filter_sublist.map Prod.snd
  exact h.withConstraints (fun l hl => h.columns l (hSublist.mem hl)) (h.apart.sublist hSublist)

theorem Coherent.retireEdit (h : s.Coherent issued) (id : Nat) :
    (s.retireEdit id).Coherent issued :=
  h.withEdits fun e he => h.edits e ((List.filter_sublist.map Prod.snd).mem he)

theorem Coherent.evolves_forget (h : s.Coherent issued)
    (hFound : s.constraints.get? id = some live) :
    s.tableau.Evolves issued (s.tableau.forget live) :=
  Tableau.evolves_forget h.solved h.orderly fun x hx => (h.columns_of_get? hFound x hx).1

theorem Coherent.evolves_drop (h : s.Coherent issued)
    (hFound : s.constraints.get? id = some live)
    (hDrop : (s.tableau.forget live).dropMarker? live.tag.marker = some t) :
    s.tableau.Evolves issued t := by
  have hForget := h.evolves_forget hFound
  obtain ⟨hMarker, hRestricted⟩ := h.columns_of_get? hFound _ live.tag.marker_mem_symbols
  exact hForget.trans (Tableau.evolves_dropMarker? h.numbered.distinct hForget.solved
    hForget.orderly hMarker hRestricted hDrop)

theorem Coherent.removeConstraint (h : s.Coherent issued) (id : Nat) :
    Advances s (s.removeConstraint id).state := by
  have hAbsorb : ∀ u, s.tableau.Evolves issued u →
      Advances s (({ s with constraints := s.constraints.erase id } : Solver α).absorb u) := by
    intro u hu
    have hLogs : Logs s { s with constraints := s.constraints.erase id } := .of_eq rfl rfl rfl rfl
    exact ⟨⟨issued, (h.unregister id).absorb hu⟩, hLogs.trans ((h.unregister id).logs_absorb hu)⟩
  have hPass : ∀ {live t}, s.constraints.get? id = some live →
      (s.tableau.forget live).dropMarker? live.tag.marker = some t →
      s.tableau.Evolves issued (t.settle s.pivotLimit).state := by
    intro live t hFound hDrop
    have hDropped := h.evolves_drop hFound hDrop
    exact hDropped.trans (Tableau.evolves_settle h.numbered.distinct s.pivotLimit hDropped.solved
      hDropped.orderly)
  have hRemoves := s.removes id
  generalize s.removeConstraint id = a at hRemoves
  cases hRemoves with
  | unknown => exact .refl h
  | @stuck live hFound _ =>
    have hState := hAbsorb _ (h.evolves_forget hFound)
    have hQuiet : (s.tableau.forget live).touched = [] := by
      obtain ⟨objective, hSame⟩ := s.tableau.forget_eq live
      rw [hSame]
      exact h.quiet
    rwa [absorb_of_quiet hQuiet] at hState
  | broken hFound hDrop hSettle =>
    have hEvolves := hPass hFound hDrop
    rw [hSettle] at hEvolves
    exact hAbsorb _ hEvolves
  | @removed live t u hFound hDrop hSettle =>
    have hEvolves := hPass hFound hDrop
    rw [hSettle] at hEvolves
    obtain ⟨⟨later, hCoherent⟩, hLogs⟩ := hAbsorb u hEvolves
    obtain ⟨hReleased, hReleaseLogs⟩ := hCoherent.release live.constraint
    exact ⟨⟨later, hReleased.retireEdit id⟩,
      hLogs.trans (hReleaseLogs.trans (.of_eq rfl rfl rfl rfl))⟩

end Removal

section Addition

theorem Inserts.advances {c : Constraint α} {a : Attempt SolverError Tag (Solver α)}
    (hInserts : Inserts s c a) (h : s.Coherent issued) : Advances s a.state := by
  cases hInserts with
  | refused hRestores => exact hRestores.advances h
  | accepted later _ hCoherent hLogs => exact ⟨⟨later, hCoherent⟩, hLogs⟩

theorem Coherent.addConstraint (h : s.Coherent issued) (c : Constraint α) :
    Advances s (s.addConstraint c).state :=
  (h.inserts c).advances h

theorem Coherent.addConstraints (h : s.Coherent issued) (cs : List (Constraint α)) :
    Advances s (s.addConstraints cs).state := by
  induction cs generalizing s issued with
  | nil => exact .refl h
  | cons c rest ih =>
    have hFirst := h.addConstraint c
    rw [Solver.addConstraints]
    split
    · rename_i next hAdd
      rw [hAdd] at hFirst
      obtain ⟨later, hNext⟩ := hFirst.coherent
      exact hFirst.trans (ih hNext)
    · exact hFirst

end Addition

section Editing

theorem mem_values_insert {κ β : Type} [DecidableEq κ] {r : Registry κ β} {k : κ} {x y : β}
    (h : y ∈ (r.insert k x).values) : y = x ∨ y ∈ r.values := by
  obtain ⟨j, hj⟩ := Registry.mem_values_iff.mp h
  rcases Registry.mem_insert_iff.mp hj with hPair | ⟨hMem, _⟩
  · exact .inl (congrArg Prod.snd hPair)
  · exact .inr (Registry.mem_values_iff.mpr ⟨j, hMem⟩)

theorem Coherent.insertEdit (h : s.Coherent issued) {edit : Edit α}
    (hTag : ∀ x ∈ edit.tag.symbols, x ∈ issued ∧ x.isExternal = false) :
    ({ s with edits := s.edits.insert v edit } : Solver α).Coherent issued := by
  refine h.withEdits fun e he => ?_
  rcases mem_values_insert he with rfl | he
  · exact hTag
  · exact h.edits e he

theorem Coherent.eraseEdit (h : s.Coherent issued) (v : Variable) :
    ({ s with edits := s.edits.erase v } : Solver α).Coherent issued :=
  h.withEdits fun e he => h.edits e ((List.filter_sublist.map Prod.snd).mem he)

theorem Coherent.addEditVariable (h : s.Coherent issued) (v : Variable) (w : Strength α) (id : Nat) :
    Advances s (s.addEditVariable v w id).state := by
  have hInserts := h.inserts (.make id (.ofVariable v) .equal w)
  have hAdvances := hInserts.advances h
  have hRegisters := s.registers v w id
  generalize s.addEditVariable v w id = a at hRegisters
  cases hRegisters with
  | refused => exact .refl h
  | broken hInsertion =>
    rw [hInsertion] at hAdvances
    exact hAdvances
  | @registered tag next _ hInsertion =>
    rw [hInsertion] at hInserts
    cases hInserts with
    | refused _ hRefusal =>
      rcases hRefusal with hError | hError | ⟨_, _, hError⟩ <;> cases hError
    | accepted later own hCoherent hLogs hOwn _ hAnswer =>
      rcases hAnswer with hOk | ⟨_, hError⟩
      · obtain rfl := Except.ok.inj hOk
        exact ⟨⟨later, hCoherent.insertEdit hOwn⟩, hLogs.trans (.of_eq rfl rfl rfl rfl)⟩
      · cases hError

theorem Coherent.removeEditVariable (h : s.Coherent issued) (v : Variable) :
    Advances s (s.removeEditVariable v).state := by
  have hRemoved : ∀ {result next} (edit : Edit α), ({ s with edits := s.edits.erase v } :
      Solver α).removeConstraint edit.constraint.id = ⟨result, next⟩ → Advances s next := by
    intro result next edit hRemoval
    have hLogs : Logs s { s with edits := s.edits.erase v } := .of_eq rfl rfl rfl rfl
    have hAdvances := (h.eraseEdit v).removeConstraint edit.constraint.id
    rw [hRemoval] at hAdvances
    exact ⟨hAdvances.coherent, hLogs.trans hAdvances.logs⟩
  have hRetires := s.retires v
  generalize s.removeEditVariable v = a at hRetires
  cases hRetires with
  | unknown => exact .refl h
  | @forgotten edit next _ hRemoval => exact hRemoved edit hRemoval
  | @removed edit _ _ hRemoval => exact hRemoved edit hRemoval

theorem Coherent.evolves_shift (h : s.Coherent issued) {edit : Edit α}
    (hFound : s.edits.get? v = some edit) (δ : α) :
    s.tableau.Evolves issued (s.tableau.shiftEdit edit.tag δ) :=
  Tableau.evolves_shiftEdit h.numbered.distinct h.solved h.orderly δ (h.edits_of_get? hFound)

theorem Coherent.suggestValue (h : s.Coherent issued) (v : Variable) (x : α) :
    Advances s (s.suggestValue v x).state := by
  have hEdit : ∀ {edit : Edit α}, s.edits.get? v = some edit →
      ({ s with edits := s.edits.insert v { edit with value := x } } : Solver α).Coherent issued := by
    intro edit hFound
    have hTag := h.edits_of_get? hFound
    exact h.insertEdit hTag
  have hLogs : ∀ edit : Edit α, Logs s { s with edits := s.edits.insert v { edit with value := x } } :=
    fun _ => .of_eq rfl rfl rfl rfl
  have hMoved : ∀ {edit : Edit α} {result t}, s.edits.get? v = some edit →
      (s.tableau.shiftEdit edit.tag (x - edit.value)).dualOptimize s.pivotLimit = ⟨result, t⟩ →
      Advances s (({ s with edits := s.edits.insert v { edit with value := x } } :
        Solver α).absorb t) := by
    intro edit result t hFound hPass
    have hShifted := h.evolves_shift hFound (x - edit.value)
    have hDual := Tableau.evolves_dualOptimize h.numbered.distinct s.pivotLimit hShifted.solved
      hShifted.orderly
    rw [hPass] at hDual
    have hEvolves := hShifted.trans hDual
    exact ⟨⟨issued, (hEdit hFound).absorb hEvolves⟩,
      (hLogs edit).trans ((hEdit hFound).logs_absorb hEvolves)⟩
  have hSuggests := s.suggests v x
  generalize s.suggestValue v x = a at hSuggests
  cases hSuggests with
  | unknown => exact .refl h
  | notFinite => exact .refl h
  | @same edit hFound => exact ⟨⟨issued, hEdit hFound⟩, hLogs edit⟩
  | moved hFound hPass => exact hMoved hFound hPass
  | broken hFound hPass => exact hMoved hFound hPass

end Editing

theorem coherent_withPivotLimit (limit : Nat) :
    (withPivotLimit limit : Solver α).Coherent ∅ where
  numbered := ⟨by simp, by simp, by simp⟩
  positive := by simp
  indexed := by
    refine ⟨⟨?_, ?_⟩, ?_, ?_⟩
    · intro v x hx
      cases hx
    · intro v w x hx
      cases hx
    · intro v r hr
      cases hr
    · intro e
      constructor <;>
        · intro he
          cases he
  solved := by
    refine ⟨?_, ⟨?_, ?_, ?_⟩, ?_⟩ <;>
      · intro e he
        cases he
  orderly := by
    intro x hx
    cases hx
  bare := rfl
  quiet := rfl
  columns := by
    intro l hl
    cases hl
  edits := by
    intro e he
    cases he
  apart := .nil

/-- One operation: the solver stays coherent, and the log is kept up to fetching and resetting. -/
theorem Coherent.perform (h : s.Coherent issued) (op : Operation α) :
    (∃ later, (s.perform op).2.Coherent later) ∧
      (op.republishes = false → Logs s (s.perform op).2) := by
  have hBoth : ∀ {after : Solver α}, Advances s after →
      (∃ later, after.Coherent later) ∧ (op.republishes = false → Logs s after) :=
    fun hAdvances => ⟨hAdvances.coherent, fun _ => hAdvances.logs⟩
  cases op with
  | addConstraint c => exact hBoth (h.addConstraint c)
  | addConstraints cs => exact hBoth (h.addConstraints cs)
  | removeConstraint id => exact hBoth (h.removeConstraint id)
  | addEditVariable v w id => exact hBoth (h.addEditVariable v w id)
  | removeEditVariable v => exact hBoth (h.removeEditVariable v)
  | suggestValue v x => exact hBoth (h.suggestValue v x)
  | nameVariable v name =>
    exact ⟨⟨issued, h.of_eq le_rfl rfl rfl rfl rfl⟩, fun _ => .of_eq rfl rfl rfl rfl⟩
  | fetchChanges =>
    refine ⟨⟨issued, h.of_eq le_rfl rfl rfl rfl rfl⟩, fun hNever => ?_⟩
    cases hNever
  | reset =>
    refine ⟨⟨∅, coherent_withPivotLimit s.pivotLimit⟩, fun hNever => ?_⟩
    cases hNever

theorem Coherent.run (h : s.Coherent issued) (ops : List (Operation α)) :
    ∃ later, (s.run ops).2.Coherent later := by
  induction ops generalizing s issued with
  | nil => exact ⟨issued, h⟩
  | cons op rest ih =>
    obtain ⟨⟨later, hNext⟩, _⟩ := h.perform op
    exact ih hNext

theorem coherent_reached (limit : Nat) (ops : List (Operation α)) :
    ∃ issued, (reached limit ops : Solver α).Coherent issued :=
  (coherent_withPivotLimit limit).run ops

/-- The places where a solver has symbols. -/
inductive Occurs (s : Solver α) (x : Symbol) : Prop where
  | basic (key : x ∈ s.tableau.rows.keys)
  | cell (e : Symbol × Row α) (row : e ∈ s.tableau.rows.entries) (key : x ∈ e.2.cells.keys)
  | objective (key : x ∈ s.tableau.objective.cells.keys)
  | constraint (l : LiveConstraint α) (live : l ∈ s.constraints.values) (column : x ∈ l.tag.symbols)
  | edit (e : Edit α) (active : e ∈ s.edits.values) (column : x ∈ e.tag.symbols)

theorem Coherent.mem_of_occurs (h : s.Coherent issued) {x : Symbol} (hx : s.Occurs x) :
    x ∈ issued := by
  cases hx with
  | basic hKey => exact h.solved.keys x hKey
  | cell e hRow hKey => exact h.solved.columns.rows e hRow x hKey
  | objective hKey => exact h.solved.columns.objective x hKey
  | constraint l hLive hColumn => exact (h.columns l hLive x hColumn).1
  | edit e hActive hColumn => exact (h.edits e hActive x hColumn).1

/-- After every run, in any arithmetic and whatever was answered, no basic symbol is a cell of a row
or of the objective, no phase one is under way, all symbols have been issued by the counter, no number
has two kinds, and no two live constraints share a column. -/
theorem solved_form_of_run (limit : Nat) (ops : List (Operation α)) :
    let s : Solver α := reached limit ops
    (∀ b ∈ s.tableau.rows.keys,
      (∀ e ∈ s.tableau.rows.entries, ∀ c ∈ e.2.cells.keys, c.id ≠ b.id) ∧
        ∀ c ∈ s.tableau.objective.cells.keys, c.id ≠ b.id) ∧
    s.tableau.artificial = none ∧
    (∀ x, s.Occurs x → x.isInvalid = false ∧ 1 ≤ x.id ∧ x.id ≤ s.lastSymbol) ∧
    (∀ x y, s.Occurs x → s.Occurs y → x.id = y.id → x.kind = y.kind) ∧
    s.constraints.values.Pairwise fun l k => l.tag.Apart k.tag := by
  obtain ⟨issued, h⟩ := coherent_reached (α := α) limit ops
  refine ⟨fun b hb => ⟨(h.solved.nonbasic b hb).rows, (h.solved.nonbasic b hb).objective⟩, h.bare,
    fun x hx => ?_, fun x y hx hy hId => ?_, h.apart⟩
  · have hIssued := h.mem_of_occurs hx
    exact ⟨h.numbered.valid x hIssued, h.positive x hIssued, h.numbered.bound x hIssued⟩
  · rw [h.numbered.distinct (h.mem_of_occurs hx) (h.mem_of_occurs hy) hId]

end Solver

end SoftSimplex
