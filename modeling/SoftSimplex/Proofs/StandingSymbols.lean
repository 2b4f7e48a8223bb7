import SoftSimplex.Proofs.BookSteps
import SoftSimplex.Proofs.ShownSymbols

/-!
# Symbols that stand

The tableau shows only symbols that stand. Numbers are given out once, so a symbol that has ceased to
stand never does again, and the symbol of a phase one never stands at all.
-/

namespace SoftSimplex.Solver
set_option autoImplicit false

section Renewal

variable {α : Type} [Scalar α] {issued : Set Symbol} {s next after : Solver α} {x y : Symbol}
  {n : Nat} {c : Constraint α} {v : Variable} {l : LiveConstraint α}

/-- What stands in the next solver has stood before or has a later number. -/
structure Renews (s next : Solver α) : Prop where
  later : s.lastSymbol ≤ next.lastSymbol
  tracked : ∀ v x, next.tracked.symbol? v = some x →
    s.tracked.symbol? v = some x ∨ s.lastSymbol < x.id
  constraints : ∀ l ∈ next.constraints.values,
    l ∈ s.constraints.values ∨ ∀ x ∈ l.tag.symbols, s.lastSymbol < x.id

theorem Renews.refl (s : Solver α) : Renews s s :=
  ⟨le_rfl, fun _ _ hx => .inl hx, fun _ hl => .inl hl⟩

theorem Renews.trans (h : Renews s next) (hMore : Renews next after) : Renews s after where
  later := h.later.trans hMore.later
  tracked v x hx := by
    rcases hMore.tracked v x hx with hx | hLater
    · exact h.tracked v x hx
    · exact .inr (h.later.trans_lt hLater)
  constraints l hl := by
    rcases hMore.constraints l hl with hl | hLater
    · exact h.constraints l hl
    · exact .inr fun x hx => h.later.trans_lt (hLater x hx)

theorem BookStep.renews (hStep : BookStep s next) : Renews s next := by
  cases hStep with
  | kept hConstraints hTracked hLater =>
    exact ⟨hLater, fun v x hx => .inl (hTracked ▸ hx), fun l hl => .inl (hConstraints ▸ hl)⟩
  | added c hNew hConstraints hTracked hLater =>
    have hTaken : (s.encode c).2.2.tracked = _ := congrArg Prod.fst (draft_eq_acquireAll s c)
    have hDraft : s.lastSymbol ≤ (s.draft c).lastSymbol :=
      VariableTable.le_acquireAll.trans_eq (congrArg Prod.snd (draft_eq_acquireAll s c)).symm
    refine ⟨(hDraft.trans (Nat.le_add_right _ _)).trans hLater, fun v x hx => ?_, fun l hl => ?_⟩
    · rw [hTracked, hTaken] at hx
      exact VariableTable.fresh_acquireAll hx
    · rw [hConstraints, Registry.values_insert hNew] at hl
      rcases List.mem_append.mp hl with hl | hl
      · exact .inl hl
      · obtain rfl := List.mem_singleton.mp hl
        exact .inr fun x hx => hDraft.trans_lt (Tag.symbols_ofConstraint hx).1
  | removed id live hFound hConstraints hTracked hLater =>
    refine ⟨hLater, fun v x hx => .inl ?_, fun l hl => .inl ?_⟩
    · rw [hTracked] at hx
      exact VariableTable.extends_releaseAll v x hx
    · rw [hConstraints] at hl
      exact (List.filter_sublist.map Prod.snd).mem hl

theorem BookSteps.renews (h : BookSteps s next) : Renews s next := by
  induction h with
  | refl => exact .refl s
  | tail _ hStep ih => exact ih.trans hStep.renews

instance : Std.Symm fun l k : LiveConstraint α => l.tag.Apart k.tag :=
  ⟨fun _ _ hApart x hx y hy => (hApart y hy x hx).symm⟩

section Retirement

variable (h : s.Coherent issued) (hRenews : Renews s next)
include h hRenews

/-- The symbol of a variable that is dropped, or taken up again under another symbol. -/
theorem Coherent.variable_retired (hOwn : s.tracked.symbol? v = some x)
    (hGone : next.tracked.symbol? v ≠ some x) (hy : next.Stands y) : y.id ≠ x.id := by
  intro hId
  obtain ⟨hIssued, hExternal⟩ := h.indexed.external v x hOwn
  have hBound := h.numbered.bound x hIssued
  cases hy with
  | tracked w hw =>
    rcases hRenews.tracked w y hw with hOld | hLater
    · obtain rfl := h.numbered.distinct (h.indexed.external w y hOld).1 hIssued hId
      obtain rfl := h.indexed.distinct v w _ hOwn hOld
      exact hGone hw
    · omega
  | column l hl hColumn =>
    rcases hRenews.constraints l hl with hOld | hLater
    · obtain ⟨hOther, hRestricted⟩ := h.columns l hOld y hColumn
      rw [h.numbered.distinct hOther hIssued hId, hExternal] at hRestricted
      cases hRestricted
    · have := hLater y hColumn
      omega

/-- The columns of a constraint that has been removed. -/
theorem Coherent.constraint_retired (hLive : l ∈ s.constraints.values)
    (hGone : l ∉ next.constraints.values) (hx : x ∈ l.tag.symbols) (hy : next.Stands y) :
    y.id ≠ x.id := by
  intro hId
  obtain ⟨hIssued, hRestricted⟩ := h.columns l hLive x hx
  have hBound := h.numbered.bound x hIssued
  cases hy with
  | tracked w hw =>
    rcases hRenews.tracked w y hw with hOld | hLater
    · obtain ⟨hOther, hExternal⟩ := h.indexed.external w y hOld
      rw [h.numbered.distinct hOther hIssued hId, hRestricted] at hExternal
      cases hExternal
    · omega
  | column k hk hColumn =>
    rcases hRenews.constraints k hk with hOld | hLater
    · have hne : l ≠ k := fun hSame => hGone (hSame ▸ hk)
      exact h.apart.forall hLive hOld hne x hx y hColumn hId.symm
    · have := hLater y hColumn
      omega

end Retirement

/-- A number that has been given out and is no symbol's any more. -/
structure Spent (s : Solver α) (n : Nat) : Prop where
  issued : n ≤ s.lastSymbol
  unowned : ∀ x, s.Stands x → x.id ≠ n

theorem Renews.spent (h : Renews s next) (hSpent : s.Spent n) : next.Spent n where
  issued := hSpent.issued.trans h.later
  unowned x hx hId := by
    have hIssued := hSpent.issued
    cases hx with
    | tracked v hv =>
      rcases h.tracked v x hv with hOld | hLater
      · exact hSpent.unowned x (.tracked v hOld) hId
      · omega
    | column l hl hColumn =>
      rcases h.constraints l hl with hOld | hLater
      · exact hSpent.unowned x (.column l hOld hColumn) hId
      · have := hLater x hColumn
        omega

theorem Spent.congr (h : s.Spent n) (hConstraints : next.constraints = s.constraints)
    (hTracked : next.tracked = s.tracked) (hLater : s.lastSymbol ≤ next.lastSymbol) :
    next.Spent n :=
  (BookStep.kept hConstraints hTracked hLater).renews.spent h

theorem Coherent.spent_of_later (h : s.Coherent issued) (hAbove : s.lastSymbol < n)
    (hConstraints : next.constraints = s.constraints) (hTracked : next.tracked = s.tracked)
    (hLater : n ≤ next.lastSymbol) : next.Spent n where
  issued := hLater
  unowned x hx hId := by
    have hBound : x.id ≤ s.lastSymbol := by
      cases hx with
      | tracked v hv =>
        rw [hTracked] at hv
        exact h.numbered.bound x (h.indexed.external v x hv).1
      | column l hl hColumn =>
        rw [hConstraints] at hl
        exact h.numbered.bound x (h.columns l hl x hColumn).1
    omega

end Renewal

section PhaseOneNumbers

variable {α : Type} [Scalar α] {issued : Set Symbol} {s next : Solver α} {c : Constraint α} {n : Nat}

/-- The number of the symbol under which a phase one inserts the row of a constraint. -/
def phaseOneNumber? (s : Solver α) (c : Constraint α) : Option Nat :=
  if s.hasConstraint c.id then none
  else
    let (row, tag, next) := s.encode c
    match Placement.of row tag with
    | .phaseOne => some (next.lastSymbol + 1)
    | _ => none

/-- The numbers of additions in turn, up to the first that fails. -/
def additionNumbers (s : Solver α) : List (Constraint α) → List Nat
  | [] => []
  | c :: rest => (s.phaseOneNumber? c).toList ++
    match s.addConstraint c with
    | ⟨.ok _, next⟩ => next.additionNumbers rest
    | _ => []

def operationNumbers (s : Solver α) : Operation α → List Nat
  | .addConstraint c => (s.phaseOneNumber? c).toList
  | .addConstraints cs => s.additionNumbers cs
  | .addEditVariable v w id =>
    match s.editRefusal? v w with
    | some _ => []
    | none => (s.phaseOneNumber? (.make id (.ofVariable v) .equal w)).toList
  | _ => []

/-- The numbers that the phase ones of a run take. -/
def phaseOneNumbers (s : Solver α) : List (Operation α) → List Nat
  | [] => []
  | op :: rest => s.operationNumbers op ++ (s.perform op).2.phaseOneNumbers rest

theorem lastSymbol_release (s : Solver α) (c : Constraint α) :
    (s.release c).lastSymbol = s.lastSymbol := by
  obtain ⟨dropped, hRelease, _⟩ := release_eq_markAll s c
  rw [hRelease]

theorem lastSymbol_discard (s : Solver α) (c : Constraint α) (tag : Tag) :
    (s.discard c tag).lastSymbol = s.lastSymbol :=
  lastSymbol_release _ c

theorem Spent.accept {tag : Tag} (h : ({ s with
    constraints := s.constraints.insert c.id ⟨c, tag⟩ } : Solver α).Spent n) :
    (s.accept c tag).state.Spent n := by
  obtain ⟨u, hState⟩ := exists_accept s c tag
  rw [hState]
  exact h.congr rfl rfl le_rfl

theorem Coherent.spent_insertConstraint (h : s.Coherent issued) (hn : s.phaseOneNumber? c = some n) :
    (s.insertConstraint c).state.Spent n := by
  obtain ⟨more, hEncodes⟩ := h.encodes c
  rw [phaseOneNumber?] at hn
  rw [insertConstraint]
  cases hNew : s.hasConstraint c.id with
  | true => simp [hNew] at hn
  | false =>
    rw [hNew] at hn
    rw [if_neg Bool.false_ne_true] at hn ⊢
    dsimp only at hn ⊢
    cases hPlacement : Placement.of (s.encode c).1 (s.encode c).2.1 with
    | basic subject => simp [hPlacement] at hn
    | contradiction => simp [hPlacement] at hn
    | phaseOne =>
      rw [hPlacement] at hn
      obtain rfl := Option.some.inj hn
      have hRestored : ∀ u, Spent ((({ (s.encode c).2.2 with
          lastSymbol := (s.encode c).2.2.lastSymbol + 1 } : Solver α).rollBack u).discard c
            (s.encode c).2.1) ((s.encode c).2.2.lastSymbol + 1) := by
        intro u
        have hSame := (h.restores_rollBack c u).same
        refine h.spent_of_later (Nat.lt_succ_of_le hEncodes.later) ?_ ?_ ?_
        · rw [hSame]
        · rw [hSame]
        · rw [lastSymbol_discard]
          exact le_rfl
      dsimp only [insertByPhaseOne]
      cases hPass : (s.encode c).2.2.tableau.insertArtificially (s.encode c).2.2.pivotLimit
        ⟨.slack, (s.encode c).2.2.lastSymbol + 1⟩ (s.encode c).1 with
      | mk result u =>
        cases result with
        | error _ => exact hRestored u
        | ok satisfied =>
          cases satisfied with
          | false => exact hRestored u
          | true =>
            have hOwn : ∀ x ∈ (s.encode c).2.1.symbols, x ∈ more ∧ x.isExternal = false :=
              fun x hx => ⟨(hEncodes.own x hx).1, (hEncodes.own x hx).2.1⟩
            have hRegistered := hEncodes.coherent.register hOwn
              (fun l hl x hx y hy => (hEncodes.own y hy).2.2 x (h.columns l hl x hx).1)
              (get?_of_not_hasConstraint hNew)
            refine Spent.accept ?_
            exact hRegistered.spent_of_later (Nat.lt_succ_self _) rfl rfl le_rfl

theorem Coherent.spent_addConstraints (h : s.Coherent issued) {cs : List (Constraint α)}
    (hn : n ∈ s.additionNumbers cs) : (s.addConstraints cs).state.Spent n := by
  induction cs generalizing s issued with
  | nil => cases hn
  | cons c rest ih =>
    have hFirst : n ∈ (s.phaseOneNumber? c).toList → (s.addConstraint c).state.Spent n := fun hMem =>
      h.spent_insertConstraint (Option.mem_toList.mp hMem)
    rw [additionNumbers, List.mem_append] at hn
    rw [Solver.addConstraints]
    cases hAdd : s.addConstraint c with
    | mk result next =>
      rw [hAdd] at hFirst hn
      cases result with
      | ok =>
        obtain ⟨later, hNext⟩ := (h.addConstraint c).coherent
        rw [hAdd] at hNext
        rcases hn with hHere | hThere
        · exact (hNext.bookSteps_addConstraints rest).renews.spent (hFirst hHere)
        · exact ih hNext hThere
      | error e => exact hFirst (hn.resolve_right (by simp))

theorem Coherent.spent_perform (h : s.Coherent issued) {op : Operation α}
    (hn : n ∈ s.operationNumbers op) : (s.perform op).2.Spent n := by
  cases op with
  | addConstraint c => exact h.spent_insertConstraint (Option.mem_toList.mp hn)
  | addConstraints cs => exact h.spent_addConstraints hn
  | addEditVariable v w id =>
    rw [operationNumbers] at hn
    have hRegisters := s.registers v w id
    show (s.addEditVariable v w id).state.Spent n
    generalize s.addEditVariable v w id = a at hRegisters
    cases hRefusal : s.editRefusal? v w with
    | some e => simp [hRefusal] at hn
    | none =>
      rw [hRefusal] at hn
      have hInserted := h.spent_insertConstraint (Option.mem_toList.mp hn)
      cases hRegisters with
      | refused hSome => cases hRefusal.symm.trans hSome
      | broken hInsertion =>
        rw [hInsertion] at hInserted
        exact hInserted
      | registered _ hInsertion =>
        rw [hInsertion] at hInserted
        exact hInserted.congr rfl rfl le_rfl
  | _ => cases hn

theorem Coherent.spent_run (h : s.Coherent issued) {ops : List (Operation α)}
    (hReset : ∀ op ∈ ops, op.isReset = false) (hRemoves : s.RemovesThrough ops)
    (hn : n ∈ s.phaseOneNumbers ops) : (s.run ops).2.Spent n := by
  induction ops generalizing s issued with
  | nil => cases hn
  | cons op rest ih =>
    obtain ⟨_, hRest⟩ := List.forall_mem_cons.mp hReset
    obtain ⟨⟨later, hNext⟩, _⟩ := h.perform op
    rcases List.mem_append.mp hn with hHere | hThere
    · exact (hNext.bookSteps_run hRest hRemoves.2).renews.spent (h.spent_perform hHere)
    · exact ih hNext hRest hRemoves.2 hThere

end PhaseOneNumbers

section Runs

theorem run_append {α : Type} [Scalar α] (s : Solver α) (before more : List (Operation α)) :
    s.run (before ++ more) =
      ((s.run before).1 ++ ((s.run before).2.run more).1, ((s.run before).2.run more).2) := by
  induction before generalizing s with
  | nil => rfl
  | cons op rest ih =>
    calc s.run (op :: rest ++ more)
        = ((s.perform op).1 :: ((s.perform op).2.run (rest ++ more)).1,
            ((s.perform op).2.run (rest ++ more)).2) := rfl
      _ = ((s.run (op :: rest)).1 ++ ((s.run (op :: rest)).2.run more).1,
            ((s.run (op :: rest)).2.run more).2) := by
        rw [ih]
        rfl

/-- After every run without a breakdown the tableau shows no symbol but those of the tracked variables
and of the live constraints. Of what has stood at some point since the last reset, the symbol of a
variable that has been dropped, the columns of a constraint that has been removed and the symbols of phase
ones are nowhere in it. -/
theorem shown_symbols_stand_of_run (limit : Nat) (before more : List (Operation Rat))
    (hOk : (withPivotLimit limit : Solver Rat).RunsThrough (before ++ more))
    (hReset : ∀ op ∈ more, op.isReset = false) :
    let s : Solver Rat := reached limit before
    let after : Solver Rat := reached limit (before ++ more)
    (∀ y, after.tableau.Shows y → after.Stands y) ∧
    (∀ v x, s.tracked.symbol? v = some x → after.tracked.symbol? v ≠ some x →
      ∀ y, after.tableau.Shows y → y.id ≠ x.id) ∧
    (∀ l ∈ s.constraints.values, l ∉ after.constraints.values →
      ∀ x ∈ l.tag.symbols, ∀ y, after.tableau.Shows y → y.id ≠ x.id) ∧
    (∀ n ∈ s.phaseOneNumbers more, ∀ y, after.tableau.Shows y → y.id ≠ n) := by
  dsimp only
  obtain ⟨issued, hSound⟩ := sound_reached hOk
  obtain ⟨early, hCoherent⟩ := coherent_reached (α := Rat) limit before
  have hAfter : (reached limit (before ++ more) : Solver Rat) = ((reached limit before).run more).2 := by
    rw [reached, run_append, reached]
  have hMore : (reached limit before : Solver Rat).RunsThrough more := by
    intro reply hReply
    refine hOk reply ?_
    rw [run_append]
    exact List.mem_append_right _ hReply
  have hStands := fun y (hy : (reached limit (before ++ more)).tableau.Shows y) =>
    hSound.stands_of_shows hy
  have hRenews := (hCoherent.bookSteps_run hReset hMore.removesThrough).renews
  rw [← hAfter] at hRenews
  refine ⟨hStands, fun v x hOwn hGone y hy => ?_, fun l hl hGone x hx y hy => ?_, fun n hn y hy => ?_⟩
  · exact hCoherent.variable_retired hRenews hOwn hGone (hStands y hy)
  · exact hCoherent.constraint_retired hRenews hl hGone hx (hStands y hy)
  · have hSpent := hCoherent.spent_run hReset hMore.removesThrough hn
    rw [← hAfter] at hSpent
    exact hSpent.unowned y (hStands y hy)

/-- Two numbers that add up to ten, the first of which is to be four. -/
def fourOfTen : List (Operation Rat) :=
  [.addConstraint (.make 1 ⟨[⟨⟨1⟩, 1⟩, ⟨⟨2⟩, 1⟩], -10⟩ .equal .required),
    .addEditVariable ⟨1⟩ .strong 2,
    .suggestValue ⟨1⟩ 4]

/-- The second number must be at least seven; then nothing else is asked any more. -/
def sevenAlone : List (Operation Rat) :=
  [.addConstraint (.make 3 ⟨[⟨⟨2⟩, 1⟩], -7⟩ .greaterOrEqual .required),
    .removeEditVariable ⟨1⟩,
    .removeConstraint 1]

theorem shown_symbols_stand_of_sevenAlone :
    (∀ y, (reached 10 (fourOfTen ++ sevenAlone)).tableau.Shows y →
      (reached 10 (fourOfTen ++ sevenAlone)).Stands y) ∧
    ((reached 10 fourOfTen).tracked.symbol? ⟨1⟩ = some ⟨.external, 1⟩ ∧
      ∀ y, (reached 10 (fourOfTen ++ sevenAlone)).tableau.Shows y → y.id ≠ 1) ∧
    ((reached 10 fourOfTen).phaseOneNumbers sevenAlone = [7] ∧
      ∀ y, (reached 10 (fourOfTen ++ sevenAlone)).tableau.Shows y → y.id ≠ 7) := by
  obtain ⟨hStands, hVariables, _, hPhaseOne⟩ := shown_symbols_stand_of_run 10 fourOfTen sevenAlone
    (by decide +kernel) (by decide)
  have hSymbol : (reached 10 fourOfTen).tracked.symbol? ⟨1⟩ = some ⟨.external, 1⟩ := by
    decide +kernel
  have hNumbers : (reached 10 fourOfTen).phaseOneNumbers sevenAlone = [7] := by
    decide +kernel
  refine ⟨hStands, ⟨hSymbol, ?_⟩, ⟨hNumbers, ?_⟩⟩
  · exact hVariables ⟨1⟩ _ hSymbol (by decide +kernel)
  · exact hPhaseOne 7 (by rw [hNumbers]; exact List.mem_singleton_self 7)

end Runs

end SoftSimplex.Solver
