import SoftSimplex.Proofs.LowestColumnRule

/-!
# The primal pass ends

Over the rational numbers a primal pass over a feasible tableau makes finitely many pivots, so from some
limit on the limit is never met. The tableau mentions finitely many symbols, and among these no pass
goes on for ever. Whatever ends the pass, the tableau is feasible and has the solutions that it had.
-/

namespace SoftSimplex.Tableau
set_option autoImplicit false

section Advance

variable {α : Type} [Scalar α] {t u : Tableau α} {goal : Goal} {limit left : Nat}

/-- The tableau after the next pivot of a primal pass, if the pass makes one. -/
def advance? (t : Tableau α) (goal : Goal) : Option (Tableau α) :=
  (t.entering? goal).bind fun entering =>
    (t.leavingRow? entering).map fun e => t.pivot e.1 e.2 entering

theorem advance?_eq_some_iff : t.advance? goal = some u ↔ ∃ entering leaving row,
    t.entering? goal = some entering ∧ t.leavingRow? entering = some (leaving, row) ∧
      u = t.pivot leaving row entering := by
  simp only [advance?, Option.bind_eq_some_iff, Option.map_eq_some_iff]
  constructor
  · rintro ⟨entering, hEntering, ⟨leaving, row⟩, hLeaving, rfl⟩
    exact ⟨entering, leaving, row, hEntering, hLeaving, rfl⟩
  · rintro ⟨entering, leaving, row, hEntering, hLeaving, rfl⟩
    exact ⟨entering, hEntering, (leaving, row), hLeaving, rfl⟩

theorem optimizeWithin_of_advance? (h : t.advance? goal = some u) :
    optimizeWithin goal limit (left + 1) t = optimizeWithin goal limit left u := by
  obtain ⟨entering, leaving, row, hEntering, hLeaving, rfl⟩ := advance?_eq_some_iff.mp h
  rw [optimizeWithin, hEntering]
  dsimp only
  rw [hLeaving]

theorem optimizeWithin_of_advance?_eq_none (h : t.advance? goal = none) (k : Nat) :
    (optimizeWithin goal limit (left + 1) t).result ≠ .error (.iterationLimitExceeded k) := by
  rw [optimizeWithin]
  cases hEntering : t.entering? goal with
  | none => exact fun hError => by cases hError
  | some entering =>
    dsimp only
    cases hLeaving : t.leavingRow? entering with
    | none => exact fun hError => by cases hError
    | some e => simp [advance?, hEntering, hLeaving] at h

end Advance

section Symbols

variable {α : Type} {issued : Set Symbol} {t : Tableau α} {s : Symbol}

/-- The symbols that a tableau mentions. -/
def symbols (t : Tableau α) : List Symbol :=
  t.rows.keys ++ t.rows.entries.flatMap (fun e => e.2.cells.keys) ++ t.objective.cells.keys ++
    t.artificial.toList.flatMap fun r => r.cells.keys

theorem mem_symbols_iff : s ∈ t.symbols ↔ s ∈ t.rows.keys ∨
    (∃ e ∈ t.rows.entries, s ∈ e.2.cells.keys) ∨ s ∈ t.objective.cells.keys ∨
      ∃ r ∈ t.artificial, s ∈ r.cells.keys := by
  simp only [symbols, List.mem_append, List.mem_flatMap, Option.mem_toList, Option.mem_def, or_assoc]

theorem Solved.symbols_subset (h : t.Solved issued) : {s | s ∈ t.symbols} ⊆ issued := by
  intro s hs
  rcases mem_symbols_iff.mp hs with hs | ⟨e, he, hs⟩ | hs | ⟨r, hr, hs⟩
  · exact h.keys s hs
  · exact h.columns.rows e he s hs
  · exact h.columns.objective s hs
  · exact h.columns.artificial r hr s hs

theorem solved_over_symbols
    (h : ∀ b ∈ t.rows.keys, t.AllRows fun r => r.AllColumns fun c => c.id ≠ b.id) :
    t.Solved {s | s ∈ t.symbols} where
  keys _ hs := mem_symbols_iff.mpr (.inl hs)
  columns :=
    { rows := fun e he _ hs => mem_symbols_iff.mpr (.inr (.inl ⟨e, he, hs⟩))
      objective := fun _ hs => mem_symbols_iff.mpr (.inr (.inr (.inl hs)))
      artificial := fun r hr _ hs => mem_symbols_iff.mpr (.inr (.inr (.inr ⟨r, hr, hs⟩))) }
  nonbasic := h

end Symbols

variable {issued : Set Symbol} {t u : Tableau Rat} {goal : Goal}

section Termination

variable (hDistinct : Set.InjOn Symbol.id issued)
include hDistinct

theorem Solved.advance (h : t.Solved issued) (hFeasible : t.Feasible)
    (hNext : t.advance? goal = some u) : u.Solved issued ∧ u.Feasible := by
  obtain ⟨entering, leaving, row, hEntering, hLeaving, rfl⟩ := advance?_eq_some_iff.mp hNext
  exact ⟨h.solved_primal hDistinct hEntering hLeaving,
    h.feasible_primal hDistinct hEntering hLeaving hFeasible⟩

/-- The stages of a pass that always advances, put together. -/
theorem exists_endless (stage : Nat → Tableau Rat) (h : (stage 0).Solved issued)
    (hFeasible : (stage 0).Feasible)
    (hNext : ∀ n, (stage n).advance? goal = some (stage (n + 1))) :
    Nonempty (Endless issued goal) := by
  have hKept : ∀ n, (stage n).Solved issued ∧ (stage n).Feasible := by
    intro n
    induction n with
    | zero => exact ⟨h, hFeasible⟩
    | succ n ih => exact ih.1.advance hDistinct ih.2 (hNext n)
  have hPivots := fun n => advance?_eq_some_iff.mp (hNext n)
  choose entering leaving row hEntering hLeaving hPivot using hPivots
  have hAims : ∀ n, ∃ r, (stage n).objectiveFor? goal = some r := by
    intro n
    obtain ⟨r, hr, _⟩ := exists_of_entering? (hEntering n)
    exact ⟨r, hr⟩
  choose objective hObjective using hAims
  exact ⟨{
    stage, objective, entering, leaving, row
    solved := fun n => (hKept n).1
    feasible := fun n => (hKept n).2
    aims := hObjective
    enters := hEntering
    leaves := hLeaving
    next := hPivot }⟩

/-- Every run of pivots of the primal pass comes to an end. -/
theorem Solved.acc_advance (h : t.Solved issued) (hFeasible : t.Feasible) (goal : Goal) :
    Acc (fun u t : Tableau Rat => t.advance? goal = some u) t := by
  by_contra hNever
  obtain ⟨stage, rfl, hNext⟩ := not_acc_iff_exists_descending_chain.mp hNever
  obtain ⟨endless⟩ := exists_endless (hDistinct.mono h.symbols_subset) stage
    (solved_over_symbols h.nonbasic) hFeasible hNext
  exact endless.not_finite (hDistinct.mono h.symbols_subset) (List.finite_toSet _)

theorem Solved.optimize_keeps_solutions (h : t.Solved issued) (hFeasible : t.Feasible) (goal : Goal)
    (limit : Nat) : (t.optimize goal limit).state.Feasible ∧
      ∀ a, (t.optimize goal limit).state.Satisfies a ↔ t.Satisfies a := by
  have hStep : ∀ u entering leaving row, u.Solved issued ∧ u.Feasible ∧ t.SameMeaning u →
      u.entering? goal = some entering → u.leavingRow? entering = some (leaving, row) →
      (u.pivot leaving row entering).Solved issued ∧ (u.pivot leaving row entering).Feasible ∧
        t.SameMeaning (u.pivot leaving row entering) := by
    rintro u entering leaving row ⟨hSolved, hFeasible, hSame⟩ hEntering hLeaving
    exact ⟨hSolved.solved_primal hDistinct hEntering hLeaving,
      hSolved.feasible_primal hDistinct hEntering hLeaving hFeasible,
      hSame.trans (hSolved.sameMeaning_primal hDistinct hEntering hLeaving)⟩
  obtain ⟨_, hStill, hSame⟩ := optimizeWithin_induction hStep limit ⟨h, hFeasible, .refl t⟩
  exact ⟨hStill, hSame.rows⟩

end Termination

theorem exists_limit_of_acc (h : Acc (fun u t : Tableau Rat => t.advance? goal = some u) t) :
    ∃ N, ∀ limit budget, N ≤ budget → ∀ k,
      (optimizeWithin goal limit budget t).result ≠ .error (.iterationLimitExceeded k) := by
  induction h with
  | intro t _ ih =>
    cases hNext : t.advance? goal with
    | none =>
      refine ⟨1, fun limit budget hBudget k => ?_⟩
      obtain ⟨left, rfl⟩ := Nat.exists_eq_add_of_le' hBudget
      exact optimizeWithin_of_advance?_eq_none hNext k
    | some u =>
      obtain ⟨N, hN⟩ := ih u hNext
      refine ⟨N + 1, fun limit budget hBudget k => ?_⟩
      obtain ⟨left, rfl⟩ := Nat.exists_eq_add_of_le' hBudget
      rw [← Nat.add_assoc, optimizeWithin_of_advance? hNext]
      exact hN limit _ (Nat.le_add_left N left) k

theorem nonneg_of_optimize {limit : Nat} (hOk : (t.optimize goal limit).result = .ok ()) {r : Row Rat}
    (hr : (t.optimize goal limit).state.objectiveFor? goal = some r) :
    ∀ e ∈ r.cells.entries, e.1.isDummy = false → 0 ≤ e.2 := by
  intro e he hKind
  have hEnd : t.optimize goal limit = ⟨.ok (), (t.optimize goal limit).state⟩ := by
    rw [← hOk]
  have hNone := entering?_of_optimizeWithin hEnd
  rw [entering?, hr, Option.bind_some] at hNone
  exact nonneg_of_enteringFor? hNone he hKind

/-- From some limit on the pass does not meet it. Where it succeeds no column could still lower the
objective, and however it ends the tableau is feasible and has the same solutions. -/
theorem optimize_ends (hDistinct : Set.InjOn Symbol.id issued) (h : t.Solved issued)
    (hFeasible : t.Feasible) (goal : Goal) :
    (∃ N, ∀ limit, N ≤ limit → ∀ k,
        (t.optimize goal limit).result ≠ .error (.iterationLimitExceeded k)) ∧
      ∀ limit,
        ((t.optimize goal limit).result = .ok () →
          ∀ r, (t.optimize goal limit).state.objectiveFor? goal = some r →
            ∀ e ∈ r.cells.entries, e.1.isDummy = false → 0 ≤ e.2) ∧
        (t.optimize goal limit).state.Feasible ∧
          ∀ a, (t.optimize goal limit).state.Satisfies a ↔ t.Satisfies a := by
  refine ⟨?_, fun limit => ⟨fun hOk r hr => nonneg_of_optimize hOk hr,
    h.optimize_keeps_solutions hDistinct hFeasible goal limit⟩⟩
  obtain ⟨N, hN⟩ := exists_limit_of_acc (h.acc_advance hDistinct hFeasible goal)
  exact ⟨N, fun limit hLimit => hN limit limit hLimit⟩

def slackRow (constant : Rat) (coefficients : List Rat) : Row Rat :=
  (coefficients.zipIdx 1).foldl (fun r e => r.addSymbol ⟨.slack, e.2⟩ e.1) ⟨constant, ∅⟩

/-- A program whose first corner is degenerate. Entering the column of the least coefficient instead of
the lowest column would bring the first basis back after six pivots. -/
def degenerateCorner : Tableau Rat :=
  ((({ objective := slackRow 0 [-10, 57, 9, 24] } : Tableau Rat).insertRow ⟨.slack, 5⟩
    (slackRow 0 [-1 / 2, 11 / 2, 5 / 2, -9])).insertRow ⟨.slack, 6⟩
      (slackRow 0 [-1 / 2, 3 / 2, 1 / 2, -1])).insertRow ⟨.slack, 7⟩ (slackRow 1 [-1])

theorem optimize_ends_at_degenerateCorner :
    (degenerateCorner.optimize .primary 6).result = .error (.iterationLimitExceeded 6) ∧
      (degenerateCorner.optimize .primary 7).result = .ok () ∧
      (degenerateCorner.optimize .primary 7).state.objective.constant = -1 ∧
      ∃ N, ∀ limit, N ≤ limit → ∀ k,
        (degenerateCorner.optimize .primary limit).result ≠ .error (.iterationLimitExceeded k) := by
  have hDistinct : ∀ s ∈ degenerateCorner.symbols, ∀ u ∈ degenerateCorner.symbols,
      s.id = u.id → s = u := by
    decide +kernel
  have hSolved := solved_over_symbols (t := degenerateCorner) (by decide +kernel)
  have hFeasible : degenerateCorner.Feasible := by
    unfold Feasible
    decide +kernel
  exact ⟨by decide +kernel, by decide +kernel, by decide +kernel,
    (optimize_ends (fun s hs u hu => hDistinct s hs u hu) hSolved hFeasible .primary).1⟩

end SoftSimplex.Tableau
