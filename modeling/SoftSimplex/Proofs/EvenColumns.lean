import SoftSimplex.Proofs.PlayedFrames

/-!
# Columns of one width

All rules of the columns hold exactly where the columns have one width, which is not below the least one,
and stand behind each other with the gaps between them. Where only the required rules hold, the container
is at least as large as columns of the least width need. So the container ends at its size or at that
bound, whichever is larger, and the columns share it evenly.
-/

namespace SoftSimplex.Layout.ColumnRequest
set_option autoImplicit false

variable {r : ColumnRequest Rat} {container : Variable} {column first next : Column}
  {columns rest : List Column} {x : Variable → Rat} {place width total : Rat}

/-- Columns of one width stand behind each other, from a place on to the end of the container. -/
structure Evenly (r : ColumnRequest Rat) (container : Variable) (x : Variable → Rat)
    (place width : Rat) (columns : List Column) : Prop where
  widths : ∀ column ∈ columns, x column.width = width
  lefts : ∀ (i : Nat) (column : Column), columns[i]? = some column →
    x column.left = place + i * (width + r.gap)
  container : x container = place + columns.length * (width + r.gap) - r.gap

section Rules

theorem holds_atLeast {v : Variable} {k : Rat} : (Rule.atLeast v k).Holds x ↔ k ≤ x v := by
  simp [Rule.Holds, Rule.atLeast, Relation.Holds]

theorem holds_fixed {v : Variable} {k : Rat} : (Rule.fixed v k).Holds x ↔ x v = k := by
  simp [Rule.Holds, Rule.fixed, Relation.Holds, sub_eq_zero]

theorem holds_neighbourRules : (∀ rule ∈ r.neighbourRules first next, rule.Holds x) ↔
    x next.left = x first.left + x first.width + r.gap ∧ x next.width = x first.width := by
  simp [neighbourRules, Rule.Holds, Relation.Holds, Expression.value_add, sub_eq_zero]

theorem holds_end : (⟨.ofVariable container, .equal,
    (Expression.ofVariable column.left).add (.ofVariable column.width), .required⟩ :
      Rule Rat).Holds x ↔ x container = x column.left + x column.width := by
  simp [Rule.Holds, Relation.Holds, Expression.value_add, sub_eq_zero]

theorem forall_columnRules_cons {P : Rule Rat → Prop} :
    (∀ rule ∈ r.columnRules container (first :: next :: rest), P rule) ↔
      P (.atLeast first.width r.minWidth) ∧ (∀ rule ∈ r.neighbourRules first next, P rule) ∧
        ∀ rule ∈ r.columnRules container (next :: rest), P rule := by
  rw [columnRules, List.forall_mem_append, List.forall_mem_cons, and_assoc]

end Rules

theorem evenly_singleton : r.Evenly container x place width [column] ↔
    x column.width = width ∧ x column.left = place ∧ x container = place + width := by
  have hEnd : place + ([column].length : Nat) * (width + r.gap) - r.gap = place + width := by
    rw [List.length_singleton, Nat.cast_one]
    ring
  constructor
  · intro h
    exact ⟨h.widths column (List.mem_singleton_self _), by simpa using h.lefts 0 column rfl,
      h.container.trans hEnd⟩
  · rintro ⟨hWidth, hLeft, hContainer⟩
    refine ⟨by simpa using hWidth, fun i column hColumn => ?_, hContainer.trans hEnd.symm⟩
    obtain ⟨rfl, rfl⟩ : i = 0 ∧ _ = column := by
      simpa [List.getElem?_singleton] using hColumn
    simpa using hLeft

theorem evenly_cons : r.Evenly container x place width (first :: next :: rest) ↔
    x first.width = width ∧ x first.left = place ∧
      r.Evenly container x (place + width + r.gap) width (next :: rest) := by
  have hShift : ∀ i : Nat, place + (i + 1 : Nat) * (width + r.gap) =
      place + width + r.gap + i * (width + r.gap) := by
    intro i
    rw [Nat.cast_succ]
    ring
  have hEnd := hShift (next :: rest).length
  rw [← List.length_cons] at hEnd
  constructor
  · intro h
    refine ⟨h.widths first List.mem_cons_self, by simpa using h.lefts 0 first rfl,
      fun column hColumn => h.widths column (List.mem_cons_of_mem _ hColumn), fun i column hColumn => ?_,
      ?_⟩
    · rw [h.lefts (i + 1) column hColumn, hShift]
    · rw [h.container, hEnd]
  · rintro ⟨hWidth, hLeft, h⟩
    refine ⟨List.forall_mem_cons.mpr ⟨hWidth, h.widths⟩, fun i column hColumn => ?_, ?_⟩
    · cases i with
      | zero =>
        obtain rfl := Option.some.inj hColumn
        simpa using hLeft
      | succ i => rw [h.lefts i column hColumn, hShift]
    · rw [h.container, hEnd]

/-- All rules of the columns hold exactly where the columns have one width, which is large enough. -/
theorem holds_columnRules_iff : (∀ rule ∈ r.columnRules container (first :: rest), rule.Holds x) ↔
    r.minWidth ≤ x first.width ∧
      r.Evenly container x (x first.left) (x first.width) (first :: rest) := by
  -- on the columns behind the first one, as the rules are written
  induction rest generalizing first with
  | nil =>
    rw [evenly_singleton, columnRules, List.forall_mem_cons, List.forall_mem_singleton, holds_atLeast,
      holds_end]
    simp
  | cons next rest ih =>
    rw [forall_columnRules_cons, ih, evenly_cons, holds_atLeast, holds_neighbourRules]
    constructor
    · rintro ⟨hLeast, ⟨hLeft, hWidth⟩, _, hEvenly⟩
      rw [hLeft, hWidth] at hEvenly
      exact ⟨hLeast, rfl, rfl, hEvenly⟩
    · rintro ⟨hLeast, _, _, hEvenly⟩
      have hWidth := hEvenly.widths next List.mem_cons_self
      have hLeft : x next.left = x first.left + x first.width + r.gap := by
        simpa using hEvenly.lefts 0 next rfl
      rw [← hLeft, ← hWidth] at hEvenly
      exact ⟨hLeast, ⟨hLeft, hWidth⟩, hWidth ▸ hLeast, hEvenly⟩

section Required

theorem isRequired_of_required {rule : Rule Rat} (h : rule.strength = .required) :
    rule.isRequired = true := by
  rw [Rule.isRequired, h]
  decide +kernel

/-- Where the required rules hold, no container is smaller than columns of the least width need. -/
theorem le_container_of_required
    (h : ∀ rule ∈ r.columnRules container (first :: rest), rule.isRequired = true → rule.Holds x) :
    x first.left + (first :: rest).length * (r.minWidth + r.gap) - r.gap ≤ x container := by
  induction rest generalizing first with
  | nil =>
    rw [columnRules, List.forall_mem_cons, List.forall_mem_singleton, holds_atLeast, holds_end] at h
    have hWidth := h.1 (isRequired_of_required rfl)
    have hEnd := h.2 (isRequired_of_required rfl)
    simp only [List.length_singleton]
    push_cast
    linarith
  | cons next rest ih =>
    obtain ⟨hLeast, hNeighbour, hRest⟩ := forall_columnRules_cons.mp h
    have hWidth := holds_atLeast.mp (hLeast (isRequired_of_required rfl))
    have hLeft : x next.left = x first.left + x first.width + r.gap := by
      have hRule := hNeighbour _ List.mem_cons_self (isRequired_of_required rfl)
      simpa [Rule.Holds, Relation.Holds, Expression.value_add, sub_eq_zero] using hRule
    have hBound := ih hRest
    simp only [List.length_cons] at hBound ⊢
    push_cast at hBound ⊢
    linarith

end Required

/-- What columns of the least width need, with the gaps between them. -/
def leastTotal (r : ColumnRequest Rat) : Rat := r.columns * r.minWidth + (r.columns - 1) * r.gap

/-- The width of each column of a container. -/
def evenWidth (r : ColumnRequest Rat) (total : Rat) : Rat :=
  (total - (r.columns - 1) * r.gap) / r.columns

section Whole

variable (hColumns : 0 < r.columns) (hLength : columns.length = r.columns)
include hColumns hLength

theorem Evenly.width_eq (h : r.Evenly container x 0 width columns) :
    width = r.evenWidth (x container) := by
  have hPositive : (r.columns : Rat) ≠ 0 := Nat.cast_ne_zero.mpr hColumns.ne'
  rw [evenWidth, h.container, hLength, eq_div_iff hPositive]
  ring

theorem holds_rules_iff : (∀ rule ∈ r.rules container columns, rule.Holds x) ↔
    ∃ width, r.minWidth ≤ width ∧ r.Evenly container x 0 width columns := by
  cases columns with
  | nil => exact absurd hLength hColumns.ne
  | cons first rest =>
    have hRules : r.rules container (first :: rest) =
        .fixed first.left 0 :: r.columnRules container (first :: rest) := rfl
    rw [hRules, List.forall_mem_cons, holds_fixed, holds_columnRules_iff]
    constructor
    · rintro ⟨hLeft, hLeast, hEvenly⟩
      exact ⟨x first.width, hLeast, hLeft ▸ hEvenly⟩
    · rintro ⟨width, hLeast, hEvenly⟩
      have hLeft : x first.left = 0 := by simpa using hEvenly.lefts 0 first rfl
      have hWidth := hEvenly.widths first List.mem_cons_self
      rw [hLeft, hWidth]
      exact ⟨rfl, hLeast, hEvenly⟩

theorem leastTotal_le_of_required
    (h : ∀ rule ∈ r.rules container columns, rule.isRequired = true → rule.Holds x) :
    r.leastTotal ≤ x container := by
  cases columns with
  | nil => exact absurd hLength hColumns.ne
  | cons first rest =>
    obtain ⟨hFirst, hRest⟩ := List.forall_mem_cons.mp h
    have hLeft := holds_fixed.mp (hFirst (isRequired_of_required rfl))
    have hBound := le_container_of_required hRest
    rw [hLeft, hLength] at hBound
    rw [leastTotal]
    linarith

end Whole

theorem minWidth_le_evenWidth (hColumns : 0 < r.columns) (h : r.leastTotal ≤ total) :
    r.minWidth ≤ r.evenWidth total := by
  have hPositive : (0 : Rat) < r.columns := Nat.cast_pos.mpr hColumns
  rw [evenWidth, le_div_iff₀ hPositive]
  rw [leastTotal] at h
  linarith

theorem strength_columnRules : ∀ rule ∈ r.columnRules container columns,
    rule.strength = .required ∨ rule.strength = .medium := by
  induction columns with
  | nil => simp [columnRules]
  | cons first rest ih =>
    cases rest with
    | nil => simp [columnRules, Rule.atLeast]
    | cons next rest =>
      rw [forall_columnRules_cons]
      exact ⟨.inl rfl, by simp [neighbourRules], ih⟩

theorem weight_pos {rule : Rule Rat} (h : rule ∈ r.rules container columns) :
    0 < rule.strength.clip.value := by
  have hStrength : rule.strength = .required ∨ rule.strength = .medium := by
    rw [rules, List.mem_append] at h
    rcases h with h | h
    · obtain ⟨first, _, rfl⟩ := Option.map_eq_some_iff.mp (Option.mem_toList.mp h)
      exact .inl rfl
    · exact strength_columnRules rule h
  rcases hStrength with hStrength | hStrength
  · rw [hStrength]
    decide +kernel
  · rw [hStrength]
    decide +kernel

section Variables

theorem length_columns : r.layoutVariables.2.1.length = r.columns := by
  simp [layoutVariables, IdSupply.freshVariable, IdSupply.freshVariables]

theorem getElem?_columns {i : Nat} (hi : i < r.columns) :
    r.layoutVariables.2.1[i]? = some ⟨⟨2 + i⟩, ⟨2 + r.columns + i⟩⟩ := by
  simp [layoutVariables, IdSupply.freshVariable, IdSupply.freshVariables, hi]

/-- The arrangement of a container of some size. -/
def arrangement (r : ColumnRequest Rat) (total : Rat) (v : Variable) : Rat :=
  if v.id = 1 then total
  else if v.id < 2 + r.columns then (v.id - 2 : Nat) * (r.evenWidth total + r.gap)
  else r.evenWidth total

theorem evenly_arrangement (hColumns : 0 < r.columns) :
    r.Evenly r.layoutVariables.1 (r.arrangement total) 0 (r.evenWidth total) r.layoutVariables.2.1 := by
  have hPlace : ∀ (i : Nat) (column : Column), r.layoutVariables.2.1[i]? = some column →
      i < r.columns ∧ column = ⟨⟨2 + i⟩, ⟨2 + r.columns + i⟩⟩ := by
    intro i column hColumn
    obtain ⟨hi, _⟩ := List.getElem?_eq_some_iff.mp hColumn
    rw [length_columns] at hi
    exact ⟨hi, (Option.some.inj ((getElem?_columns hi).symm.trans hColumn)).symm⟩
  refine ⟨fun column hMem => ?_, fun i column hColumn => ?_, ?_⟩
  · obtain ⟨i, hColumn⟩ := List.mem_iff_getElem?.mp hMem
    obtain ⟨_, rfl⟩ := hPlace i column hColumn
    rw [arrangement, if_neg (by dsimp only; omega), if_neg (by dsimp only; omega)]
  · obtain ⟨hi, rfl⟩ := hPlace i column hColumn
    rw [arrangement, if_neg (by dsimp only; omega), if_pos (by dsimp only; omega)]
    dsimp only
    rw [Nat.add_sub_cancel_left, zero_add]
  · have hPositive : (r.columns : Rat) ≠ 0 := Nat.cast_ne_zero.mpr hColumns.ne'
    have hTotal : r.arrangement total r.layoutVariables.1 = total := rfl
    rw [hTotal, length_columns, evenWidth]
    field_simp
    ring

end Variables

/-- The nearest a container can come to its size. -/
theorem abs_max_sub_le {size least y : Rat} (h : least ≤ y) : |max size least - size| ≤ |y - size| := by
  rw [abs_of_nonneg (sub_nonneg.mpr (le_max_left size least)),
    ← max_sub_sub_right, sub_self]
  exact max_le (abs_nonneg _) ((sub_le_sub_right h size).trans (le_abs_self _))

theorem eq_max_of_abs_sub {size least y : Rat} (h : least ≤ y)
    (hNear : |y - size| = |max size least - size|) : y = max size least := by
  rcases le_total least size with hLeast | hSize
  · rw [max_eq_left hLeast, sub_self, abs_zero, abs_eq_zero] at hNear
    rw [max_eq_left hLeast]
    exact sub_eq_zero.mp hNear
  · rw [max_eq_right hSize, abs_of_nonneg (sub_nonneg.mpr hSize),
      abs_of_nonneg (sub_nonneg.mpr (hSize.trans h))] at hNear
    rw [max_eq_right hSize]
    linarith

/-- A solver that follows a size with the container solves the columns evenly. -/
theorem evenly_of_follows {number : Nat} {s : Solver Rat} {size : Rat} (hColumns : 0 < r.columns)
    (h : Follows number (r.rules r.layoutVariables.1 r.layoutVariables.2.1) r.layoutVariables.1 size s) :
    s.solvedValue r.layoutVariables.1 = max size r.leastTotal ∧
      r.Evenly r.layoutVariables.1 s.solvedValue 0 (r.evenWidth (max size r.leastTotal))
        r.layoutVariables.2.1 := by
  have hArranged := (holds_rules_iff hColumns length_columns).mpr
    ⟨_, minWidth_le_evenWidth hColumns (le_max_right size r.leastTotal), evenly_arrangement hColumns⟩
  obtain ⟨hRules, hDistance⟩ := h.solved (fun _ => weight_pos) hArranged fun y hy =>
    abs_max_sub_le (leastTotal_le_of_required hColumns length_columns hy)
  have hLeast := leastTotal_le_of_required hColumns length_columns fun rule hRule _ => hRules rule hRule
  have hTotal := eq_max_of_abs_sub hLeast hDistance
  obtain ⟨width, _, hEvenly⟩ := (holds_rules_iff hColumns length_columns).mp hRules
  have hWidth := hEvenly.width_eq hColumns length_columns
  rw [hTotal] at hWidth
  exact ⟨hTotal, hWidth ▸ hEvenly⟩

end SoftSimplex.Layout.ColumnRequest
