import SoftSimplex.Proofs.PrimalPivots

/-!
# The rule of the lowest column

There are finitely many bases, so a primal pass that went on for ever would come back to one. Between
its two visits the objective is the same, hence every pivot is degenerate and the basic solution stands
still, and each symbol that moves both enters and leaves. Take the highest of these, and the two pivots
at which it enters and leaves. The objective of the first and the rows of the second show a lower
symbol that either rule would have taken before it.
-/

namespace SoftSimplex.Tableau
set_option autoImplicit false

/-- A primal pass that finds a pivot at every stage. -/
structure Endless (issued : Set Symbol) (goal : Goal) where
  stage : Nat → Tableau Rat
  objective : Nat → Row Rat
  entering : Nat → Symbol
  leaving : Nat → Symbol
  row : Nat → Row Rat
  solved : ∀ n, (stage n).Solved issued
  feasible : ∀ n, (stage n).Feasible
  aims : ∀ n, (stage n).objectiveFor? goal = some (objective n)
  enters : ∀ n, (stage n).entering? goal = some (entering n)
  leaves : ∀ n, (stage n).leavingRow? (entering n) = some (leaving n, row n)
  next : ∀ n, stage (n + 1) = (stage n).pivot (leaving n) (row n) (entering n)

namespace Endless

variable {issued : Set Symbol} {goal : Goal} (c : Endless issued goal) {i j m n p q : Nat}
  {s : Symbol} {a : Nat → Rat}

def basis (n : Nat) : Set Symbol := {s | s ∈ (c.stage n).rows.keys}

/-- The solution with every non-basic column at zero. -/
def point (n : Nat) : Nat → Rat := (c.stage n).complete 0

theorem leaving_mem (n : Nat) : c.leaving n ∈ c.basis n :=
  SymbolMap.mem_keys_of_mem (mem_rows_of_leavingRow? (c.leaves n)).1

theorem leaving_restricted (n : Nat) : (c.leaving n).isExternal = false :=
  (mem_rows_of_leavingRow? (c.leaves n)).2

theorem basis_subset (n : Nat) : c.basis n ⊆ issued := (c.solved n).keys

/-- The columns of the objective are off the basis. -/
theorem objective_nonbasic (n : Nat) (hs : s ∈ (c.objective n).cells.keys) : s ∉ c.basis n :=
  fun hBasic => (c.solved n).objectiveFor?_nonbasic (c.aims n) s hBasic s hs rfl

theorem entering_not_dummy (n : Nat) : (c.entering n).isDummy = false := by
  obtain ⟨_, _, _, _, _, hKind⟩ := exists_of_entering? (c.enters n)
  exact hKind

theorem entering_not_mem (n : Nat) : c.entering n ∉ c.basis n :=
  fun hBasic => (c.solved n).entering_nonbasic (c.enters n) _ hBasic rfl

section Steps

variable (hDistinct : Set.InjOn Symbol.id issued)
include hDistinct

theorem mem_basis_succ_iff :
    s ∈ c.basis (n + 1) ↔ s = c.entering n ∨ s ∈ c.basis n ∧ s ≠ c.leaving n := by
  have hPivot := (c.solved n).exchangeable_primal hDistinct (c.enters n) (c.leaves n)
  rw [basis, c.next]
  exact (c.solved n).mem_keys_pivot_iff hPivot.toCrossing

theorem sameMeaning (h : m ≤ n) : (c.stage m).SameMeaning (c.stage n) := by
  induction n, h using Nat.le_induction with
  | base => exact .refl _
  | succ n _ ih =>
    refine ih.trans ?_
    rw [c.next]
    exact (c.solved n).sameMeaning_primal hDistinct (c.enters n) (c.leaves n)

theorem satisfies_iff (m n : Nat) : (c.stage m).Satisfies a ↔ (c.stage n).Satisfies a := by
  rcases le_total m n with h | h
  · exact ((c.sameMeaning hDistinct h).rows a).symm
  · exact (c.sameMeaning hDistinct h).rows a

/-- At a solution all objectives of the run have one value. -/
theorem objective_value (hSat : (c.stage m).Satisfies a) (n : Nat) :
    (c.objective n).value a = (c.objective m).value a := by
  rcases le_total m n with h | h
  · obtain ⟨r, hr, hValue⟩ := (c.sameMeaning hDistinct h).value_objectiveFor? (c.aims n) hSat
    rw [hValue, Option.some.inj (hr.symm.trans (c.aims m))]
  · have hSat' := (c.satisfies_iff hDistinct m n).mp hSat
    obtain ⟨r, hr, hValue⟩ := (c.sameMeaning hDistinct h).value_objectiveFor? (c.aims m) hSat'
    rw [hValue, Option.some.inj (hr.symm.trans (c.aims n))]

end Steps

theorem objective_succ (n : Nat) : c.objective (n + 1) =
    (c.objective n).substitute (c.entering n) ((c.row n).exchange (c.leaving n) (c.entering n)) := by
  have hAims := c.aims (n + 1)
  rw [c.next, objectiveFor?_pivot, c.aims] at hAims
  exact (Option.some.inj hAims).symm

theorem constant_antitone : Antitone fun n => (c.objective n).constant := by
  refine antitone_nat_of_succ_le fun n => ?_
  rw [c.objective_succ]
  exact ((c.solved n).constant_primal (c.enters n) (c.leaves n) (c.feasible n) (c.aims n)).1

theorem satisfies_point (n : Nat) : (c.stage n).Satisfies (c.point n) := (c.solved n).satisfies_complete

theorem point_of_not_mem (hDistinct : Set.InjOn Symbol.id issued) (hs : s ∈ issued)
    (hOut : s ∉ c.basis n) : c.point n s.id = 0 := by
  rcases (c.solved n).complete_cases hDistinct hs 0 with ⟨row, hRow, _⟩ | hValue
  · exact absurd (SymbolMap.mem_keys_of_mem hRow) hOut
  · exact hValue

theorem point_of_mem {row : Row Rat} (hRow : (s, row) ∈ (c.stage n).rows.entries) :
    c.point n s.id = row.constant := by
  rw [point, complete_of_mem hRow, row.constant_eq_value]

theorem constant_eq_value (n : Nat) : (c.objective n).constant = (c.objective n).value (c.point n) := by
  rw [point, value_complete ((c.solved n).objectiveFor?_nonbasic (c.aims n)), Row.constant_eq_value]

section Return

variable (hDistinct : Set.InjOn Symbol.id issued) (hBack : c.basis i = c.basis j)
include hDistinct hBack

theorem point_return : c.point i = c.point j := by
  refine (c.solved i).complete_eq ?_ fun n hn => ?_
  · exact (c.satisfies_iff hDistinct i j).mpr (c.satisfies_point j)
  · refine complete_of_nonbasic fun b hb => hn b ?_
    show b ∈ c.basis i
    rw [hBack]
    exact hb

theorem constant_return : (c.objective i).constant = (c.objective j).constant := by
  rw [c.constant_eq_value, c.constant_eq_value, ← c.point_return hDistinct hBack]
  exact c.objective_value hDistinct ((c.satisfies_iff hDistinct i j).mp (c.satisfies_point i)) i

theorem constant_between (hi : i ≤ n) (hj : n ≤ j) :
    (c.objective n).constant = (c.objective i).constant := by
  refine le_antisymm (c.constant_antitone hi) ?_
  rw [c.constant_return hDistinct hBack]
  exact c.constant_antitone hj

/-- Between the two visits every pivot is degenerate. -/
theorem row_constant (hi : i ≤ n) (hj : n < j) : (c.row n).constant = 0 := by
  refine ((c.solved n).constant_primal (c.enters n) (c.leaves n) (c.feasible n) (c.aims n)).2 ?_
  rw [← c.objective_succ, c.constant_between hDistinct hBack (hi.trans n.le_succ) hj,
    c.constant_between hDistinct hBack hi hj.le]

theorem point_between (hi : i ≤ n) (hj : n ≤ j) : c.point n = c.point i := by
  induction n, hi using Nat.le_induction with
  | base => rfl
  | succ n hi ih =>
    rw [← ih (Nat.le_of_succ_le hj)]
    refine (c.solved (n + 1)).complete_eq ?_ fun k hk => ?_
    · exact (c.satisfies_iff hDistinct n (n + 1)).mp (c.satisfies_point n)
    · by_cases hBasic : ∃ b ∈ c.basis n, b.id = k
      · obtain ⟨b, hb, rfl⟩ := hBasic
        have hLeft : b = c.leaving n := by
          by_contra hStays
          exact hk b ((c.mem_basis_succ_iff hDistinct).mpr (.inr ⟨hb, hStays⟩)) rfl
        rw [hLeft, c.point_of_mem (mem_rows_of_leavingRow? (c.leaves n)).1,
          c.row_constant hDistinct hBack hi hj]
        rfl
      · exact complete_of_nonbasic fun b hb hId => hBasic ⟨b, hb, hId⟩

end Return

section Moves

variable (hDistinct : Set.InjOn Symbol.id issued)
include hDistinct

theorem mem_of_no_entry (hNo : ∀ n, i ≤ n → n < j → c.entering n ≠ s) (hm : i ≤ m) (hmn : m ≤ n)
    (hn : n ≤ j) (hs : s ∈ c.basis n) : s ∈ c.basis m := by
  induction n, hmn using Nat.le_induction with
  | base => exact hs
  | succ n hmn ih =>
    refine ih (Nat.le_of_succ_le hn) ?_
    exact (((c.mem_basis_succ_iff hDistinct).mp hs).resolve_left
      (hNo n (hm.trans hmn) hn).symm).1

theorem mem_of_no_exit (hNo : ∀ n, i ≤ n → n < j → c.leaving n ≠ s) (hm : i ≤ m) (hmn : m ≤ n)
    (hn : n ≤ j) (hs : s ∈ c.basis m) : s ∈ c.basis n := by
  induction n, hmn using Nat.le_induction with
  | base => exact hs
  | succ n hmn ih =>
    exact (c.mem_basis_succ_iff hDistinct).mpr
      (.inr ⟨ih (Nat.le_of_succ_le hn), (hNo n (hm.trans hmn) hn).symm⟩)

variable (hBack : c.basis i = c.basis j) (hp : i ≤ p ∧ p ≤ j) (hq : i ≤ q ∧ q ≤ j)
  (hOut : s ∉ c.basis p) (hIn : s ∈ c.basis q)
include hBack hp hq hOut hIn

/-- What is basic at one stage of the round and not at another must enter in it. -/
theorem exists_entry : ∃ n, i ≤ n ∧ n < j ∧ c.entering n = s := by
  by_contra hNever
  have hNo : ∀ n, i ≤ n → n < j → c.entering n ≠ s := fun n hi hj hs => hNever ⟨n, hi, hj, hs⟩
  have hStart := c.mem_of_no_entry hDistinct hNo le_rfl hq.1 hq.2 hIn
  exact hOut (c.mem_of_no_entry hDistinct hNo hp.1 hp.2 le_rfl (hBack ▸ hStart))

/-- It must leave as well. -/
theorem exists_exit : ∃ n, i ≤ n ∧ n < j ∧ c.leaving n = s := by
  by_contra hNever
  have hNo : ∀ n, i ≤ n → n < j → c.leaving n ≠ s := fun n hi hj hs => hNever ⟨n, hi, hj, hs⟩
  have hEnd := c.mem_of_no_exit hDistinct hNo hq.1 hq.2 le_rfl hIn
  exact hOut (c.mem_of_no_exit hDistinct hNo le_rfl hp.1 hp.2 (hBack ▸ hEnd))

end Moves

theorem exists_highest (hLess : i < j) :
    ∃ p, i ≤ p ∧ p < j ∧ ∀ n, i ≤ n → n < j → (c.entering n).id ≤ (c.entering p).id := by
  obtain ⟨p, hp, hHighest⟩ := Finset.exists_max_image (Finset.Ico i j) (fun n => (c.entering n).id)
    ⟨i, Finset.left_mem_Ico.mpr hLess⟩
  obtain ⟨hi, hj⟩ := Finset.mem_Ico.mp hp
  exact ⟨p, hi, hj, fun n hni hnj => hHighest n (Finset.mem_Ico.mpr ⟨hni, hnj⟩)⟩

/-- The solution to which the entering column of a stage leads when it is raised by one. -/
def lift (n : Nat) : Nat → Rat := (c.stage n).raise (c.entering n) 1

theorem lift_of_mem {row : Row Rat} (hRow : (s, row) ∈ (c.stage n).rows.entries) :
    c.lift n s.id = row.constant + row.coefficient (c.entering n) := by
  rw [lift, raise, complete_of_mem hRow, Row.value_update, ← row.constant_eq_value, Pi.zero_apply,
    sub_zero, mul_one]

theorem lift_cases (hDistinct : Set.InjOn Symbol.id issued) (hs : s ∈ issued) (n : Nat) :
    (∃ row, (s, row) ∈ (c.stage n).rows.entries) ∨ s = c.entering n ∧ c.lift n s.id = 1 ∨
      c.lift n s.id = 0 := by
  rcases (c.solved n).complete_cases hDistinct hs (Function.update 0 (c.entering n).id 1)
    with ⟨row, hRow, _⟩ | hValue
  · exact .inl ⟨row, hRow⟩
  · rw [lift, raise, hValue, Function.update_apply]
    split
    · rename_i hId
      exact .inr (.inl ⟨hDistinct hs ((c.solved n).entering_mem (c.enters n)) hId, rfl⟩)
    · exact .inr (.inr rfl)

section Round

variable (hDistinct : Set.InjOn Symbol.id issued) (hBack : c.basis i = c.basis j)
  (hp : i ≤ p ∧ p < j) (hq : i ≤ q ∧ q < j)
include hDistinct hBack hp hq

/-- The objective of one stage falls when the entering column of another is raised. -/
theorem exists_falling : ∃ e ∈ (c.objective p).cells.entries, e.2 * c.lift q e.1.id < 0 := by
  have hValue := c.objective_value hDistinct (a := c.lift q) (c.solved q).satisfies_complete p
  rw [lift, (c.solved q).value_raise (c.aims q), mul_one, ← lift, Row.value] at hValue
  have hCost := coefficient_neg_of_entering? (c.enters q) (c.aims q)
  have hConstant : (c.objective q).constant = (c.objective p).constant :=
    (c.constant_between hDistinct hBack hq.1 hq.2.le).trans
      (c.constant_between hDistinct hBack hp.1 hp.2.le).symm
  by_contra hNone
  have hSum : 0 ≤ ((c.objective p).cells.entries.map fun e => e.2 * c.lift q e.1.id).sum := by
    refine List.sum_nonneg fun x hx => ?_
    obtain ⟨e, he, rfl⟩ := List.mem_map.mp hx
    exact not_lt.mp fun hFalls => hNone ⟨e, he, hFalls⟩
  linarith

/-- A symbol that is basic at one stage of the round and not at another enters, so it is no dummy, and
leaves, so it is restricted. -/
theorem moved (hOut : s ∉ c.basis p) (hIn : s ∈ c.basis q)
    (hHighest : ∀ n, i ≤ n → n < j → (c.entering n).id ≤ (c.entering p).id) :
    s.isDummy = false ∧ s.isExternal = false ∧ s.id ≤ (c.entering p).id := by
  have hp' : i ≤ p ∧ p ≤ j := ⟨hp.1, hp.2.le⟩
  have hq' : i ≤ q ∧ q ≤ j := ⟨hq.1, hq.2.le⟩
  obtain ⟨m, hmi, hmj, rfl⟩ := c.exists_entry hDistinct hBack hp' hq' hOut hIn
  obtain ⟨n, _, _, hExits⟩ := c.exists_exit hDistinct hBack hp' hq' hOut hIn
  exact ⟨c.entering_not_dummy m, hExits ▸ c.leaving_restricted n, hHighest m hmi hmj⟩

theorem constant_of_moved (hOut : s ∉ c.basis p) {row : Row Rat}
    (hRow : (s, row) ∈ (c.stage q).rows.entries) : row.constant = 0 := by
  have hIssued := c.basis_subset q (SymbolMap.mem_keys_of_mem hRow)
  rw [← c.point_of_mem hRow, c.point_between hDistinct hBack hq.1 hq.2.le,
    ← c.point_between hDistinct hBack hp.1 hp.2.le, c.point_of_not_mem hDistinct hIssued hOut]

/-- A basic column of the second stage that improves the objective of the first does not fall when the
entering column is raised: its row would leave before that of the higher column that does. -/
theorem basic_cell_nonneg
    (hHighest : ∀ n, i ≤ n → n < j → (c.entering n).id ≤ (c.entering p).id)
    (hLeaves : c.leaving q = c.entering p) {k : Rat}
    (hCell : (s, k) ∈ (c.objective p).cells.entries) {row : Row Rat}
    (hRow : (s, row) ∈ (c.stage q).rows.entries) : 0 ≤ k * c.lift q s.id := by
  have hIn : s ∈ c.basis q := SymbolMap.mem_keys_of_mem hRow
  have hOut : s ∉ c.basis p := c.objective_nonbasic p (SymbolMap.mem_keys_of_mem hCell)
  obtain ⟨hKind, hRestricted, hLe⟩ := c.moved hDistinct hBack hp hq hOut hIn hHighest
  have hConstant := c.constant_of_moved hDistinct hBack hp hq hOut hRow
  rw [c.lift_of_mem hRow, hConstant, zero_add]
  rcases hLe.eq_or_lt with hSame | hBelow
  -- The highest symbol itself: its cost is below zero when it enters, its row falls when it leaves.
  · obtain rfl : s = c.entering p :=
      hDistinct (c.basis_subset q hIn) ((c.solved p).entering_mem (c.enters p)) hSame
    have hCost := coefficient_neg_of_entering? (c.enters p) (c.aims p)
    rw [Row.coefficient_of_mem hCell] at hCost
    have hOwn := (mem_rows_of_leavingRow? (c.leaves q)).1
    rw [hLeaves] at hOwn
    cases SymbolMap.eq_of_mem_of_id_eq hRow hOwn rfl
    exact mul_nonneg_of_nonpos_of_nonpos hCost.le (coefficient_neg_of_leavingRow? (c.leaves q)).le
  -- A lower one would have entered before it, and leaves before it where its row falls: all bounds are
  -- zero, so the lowest of the falling rows is taken.
  · have hCost : 0 ≤ k := not_lt.mp fun hFalls =>
      absurd (le_of_entering? (c.enters p) (c.aims p) hCell hFalls hKind) (not_le.mpr hBelow)
    refine mul_nonneg hCost (not_lt.mp fun hFalls => ?_)
    have hRatio := ratio_lt_of_leavingRow? (c.leaves q) hRow hRestricted hFalls (hLeaves ▸ hBelow)
    rw [hConstant, c.row_constant hDistinct hBack hq.1 hq.2, neg_zero, zero_div, zero_div] at hRatio
    exact lt_irrefl _ hRatio

end Round

/-- A column that enters while a higher one leaves is no candidate when the higher one enters. -/
theorem entering_cell_nonneg (hDistinct : Set.InjOn Symbol.id issued)
    (hBelow : (c.entering q).id ≤ (c.entering p).id) (hLeaves : c.leaving q = c.entering p) {k : Rat}
    (hCell : (c.entering q, k) ∈ (c.objective p).cells.entries) : 0 ≤ k := by
  by_contra hFalls
  have hFirst := le_of_entering? (c.enters p) (c.aims p) hCell (not_le.mp hFalls)
    (c.entering_not_dummy q)
  have hSame : c.entering p = c.entering q := hDistinct ((c.solved p).entering_mem (c.enters p))
    ((c.solved q).entering_mem (c.enters q)) (hFirst.antisymm hBelow)
  exact c.entering_not_mem q (hSame ▸ hLeaves ▸ c.leaving_mem q)

/-- No basis comes back. Otherwise the highest symbol that enters on the way leaves as well, the column
that enters instead of it lowers the objective at which it entered, and yet no cell of this objective
lets that happen. -/
theorem not_return (hDistinct : Set.InjOn Symbol.id issued) (hLess : i < j) :
    c.basis i ≠ c.basis j := by
  intro hBack
  obtain ⟨p, hpi, hpj, hHighest⟩ := c.exists_highest hLess
  obtain ⟨q, hqi, hqj, hLeaves⟩ := c.exists_exit hDistinct hBack (s := c.entering p)
    ⟨hpi, hpj.le⟩ ⟨hpi.trans p.le_succ, hpj⟩ (c.entering_not_mem p)
    ((c.mem_basis_succ_iff hDistinct).mpr (.inl rfl))
  obtain ⟨⟨s, k⟩, hCell, hFalls⟩ := c.exists_falling hDistinct hBack ⟨hpi, hpj⟩ ⟨hqi, hqj⟩
  have hIssued := (c.solved p).objectiveFor?_columns (c.aims p) s (SymbolMap.mem_keys_of_mem hCell)
  refine not_le.mpr hFalls ?_
  rcases c.lift_cases hDistinct hIssued q with ⟨row, hRow⟩ | ⟨rfl, hRaised⟩ | hStill
  · exact c.basic_cell_nonneg hDistinct hBack ⟨hpi, hpj⟩ ⟨hqi, hqj⟩ hHighest hLeaves hCell hRow
  · rw [hRaised, mul_one]
    exact c.entering_cell_nonneg hDistinct (hHighest q hqi hqj) hLeaves hCell
  · rw [hStill, mul_zero]

include c in
/-- Among finitely many symbols no primal pass goes on for ever. -/
theorem not_finite (hDistinct : Set.InjOn Symbol.id issued) : ¬ issued.Finite := by
  intro hFinite
  obtain ⟨i, j, hLess, hBack⟩ :=
    hFinite.finite_subsets.exists_lt_map_eq_of_forall_mem fun n => c.basis_subset n
  exact c.not_return hDistinct hLess hBack

end Endless

end SoftSimplex.Tableau
