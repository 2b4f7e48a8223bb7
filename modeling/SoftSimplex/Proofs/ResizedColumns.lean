import SoftSimplex.Proofs.EvenColumns

/-!
# Resized columns

The solver of the columns starts with the names, then takes in the rules and follows the container's size.
Unless a pass runs out of pivots, every frame of a range is played, and after each the columns share the
container evenly: at its size, or at the least that the columns need.
-/

namespace SoftSimplex.Layout.ColumnRequest
set_option autoImplicit false

section Definitions

variable {α : Type} [Scalar α]

/-- The solver before the first frame. -/
def built (r : ColumnRequest α) : Except LayoutError (Solver α) :=
  r.solver r.layoutVariables.1 r.layoutVariables.2.1 r.layoutVariables.2.2

/-- The solver that the first frames leave behind. -/
def solverAfter (r : ColumnRequest α) (frames : Nat) : Except LayoutError (Solver α) :=
  r.built.bind fun s => played r.layoutVariables.1 s ((List.range frames).map r.range.size)

theorem name_eq (s : Solver α) (container : Variable) (columns : List Column) :
    ∃ names, name s container columns = { s with names } := by
  rw [name]
  generalize columns.zipIdx = entries
  have hFold : ∀ (s t : Solver α), (∃ names, t = { s with names }) →
      ∃ names, entries.foldl (fun t (e : Column × Nat) =>
        (t.nameVariable e.1.left ("left" ++ toString e.2)).nameVariable e.1.width
          ("width" ++ toString e.2)) t = { s with names } := by
    induction entries with
    | nil => exact fun _ _ h => h
    | cons e rest ih =>
      rintro s _ ⟨names, rfl⟩
      exact ih s _ ⟨_, rfl⟩
  exact hFold s _ ⟨_, rfl⟩

end Definitions

variable {r : ColumnRequest Rat}

theorem inOrder_named (container : Variable) (columns : List Column) :
    (name (.empty : Solver Rat) container columns).InOrder := by
  obtain ⟨names, hNames⟩ := name_eq (.empty : Solver Rat) container columns
  have h := Solver.inOrder_withPivotLimit 10000
  obtain ⟨issued, hSound⟩ := h.sound
  obtain ⟨known, hCoherent⟩ := h.coherent
  rw [hNames]
  exact ⟨⟨issued, hSound.congr rfl rfl rfl rfl rfl⟩, h.pinned,
    ⟨known, hCoherent.of_eq le_rfl rfl rfl rfl rfl⟩, h.current.logs (.of_eq rfl rfl rfl rfl)⟩

/-- The rules can be met, so building runs out of pivots or gives a solver in which all values are zero. -/
theorem built_follows (hColumns : 0 < r.columns) : StuckOnPivots r.built ∨
    ∃ s, r.built = .ok s ∧ Follows 1 (r.rules r.layoutVariables.1 r.layoutVariables.2.1)
      r.layoutVariables.1 0 s ∧ s.getValue = fun _ => 0 := by
  have hArranged := (holds_rules_iff hColumns length_columns).mpr
    ⟨_, minWidth_le_evenWidth hColumns le_rfl, evenly_arrangement hColumns⟩
  obtain ⟨names, hNames⟩ := name_eq (.empty : Solver Rat) r.layoutVariables.1 r.layoutVariables.2.1
  have hBuild := build_follows (inOrder_named r.layoutVariables.1 r.layoutVariables.2.1)
    (by rw [hNames]; rfl) (by rw [hNames]; rfl) (fun rule hRule _ => hArranged rule hRule)
    r.layoutVariables.1 r.layoutVariables.2.2
  refine hBuild.imp_right ?_
  rintro ⟨s, hBuilt, hFollows, hPublished⟩
  refine ⟨s, hBuilt, hFollows, ?_⟩
  funext v
  rw [Solver.getValue, hPublished, hNames]
  rfl

theorem size_eq (range : FrameRange Rat) (k : Nat) :
    range.size k = range.first + k * range.step := by
  show range.first + range.step * (k : Rat) = _
  rw [mul_comm]

theorem frames_eq {n : Nat} (hColumns : 0 < r.columns) (hCount : r.range.count = .ok n) :
    r.frames = r.built.bind fun s =>
      playFrames r.layoutVariables.1 s [] ((List.range n).map r.range.size) := by
  have hSizes : r.range.sizes = .ok ((List.range n).map r.range.size) := by
    rw [FrameRange.sizes, hCount]
    rfl
  rw [frames, if_neg hColumns.ne', hSizes]
  rfl

/-- Unless a pass runs out of pivots, the columns of every range are played frame by frame. In each frame
the container has its size or the least that the columns need, whichever is larger; then all columns have
the width that is left for each of them and stand behind each other. The changes so far, replayed over
zeros, give the values that callers read. -/
theorem frames_evenly_of_range (r : ColumnRequest Rat) (n : Nat) (hColumns : 1 ≤ r.columns)
    (hCount : r.range.count = .ok n)
    (hPivots : ∀ limit, r.frames ≠ .error (.solver (.breakdown (.iterationLimitExceeded limit)))) :
    ∃ frames, r.frames = .ok frames ∧ frames.length = n ∧ ∀ k < n, ∃ frame s,
      frames[k]? = some frame ∧ r.solverAfter (k + 1) = .ok s ∧
      frame.container = max (r.range.first + k * r.range.step)
        (r.columns * r.minWidth + (r.columns - 1) * r.gap) ∧
      s.getValue r.layoutVariables.1 = frame.container ∧
      (∀ i < r.columns, ∃ column, r.layoutVariables.2.1[i]? = some column ∧
        s.getValue column.width = (frame.container - (r.columns - 1) * r.gap) / r.columns ∧
        s.getValue column.left = i * (s.getValue column.width + r.gap)) ∧
      ∀ v, replay (fun _ => 0) (frames.take (k + 1)) v = s.getValue v := by
  have hFrames := frames_eq hColumns hCount
  rcases built_follows hColumns with ⟨limit, hLimit⟩ | ⟨start, hBuilt, hFollows, hStart⟩
  · rw [hLimit] at hFrames
    exact absurd hFrames (hPivots limit)
  · rw [hBuilt] at hFrames
    rcases hFollows.playFrames [] ((List.range n).map r.range.size) with
      ⟨limit, hLimit⟩ | ⟨frames, hPlayed, hLength, hEach⟩
    · exact absurd (hFrames.trans hLimit) (hPivots limit)
    · refine ⟨frames, hFrames.trans hPlayed, by simpa using hLength, fun k hk => ?_⟩
      obtain ⟨frame, s, hFrame, hAfter, hPresents, hReplay⟩ := hEach k (r.range.size k) (by simp [hk])
      obtain ⟨hTotal, hEvenly⟩ := evenly_of_follows hColumns hPresents.follows
      rw [← hPresents.reads, ← hPresents.container] at hTotal
      rw [← hPresents.reads, ← hTotal] at hEvenly
      refine ⟨frame, s, hFrame, ?_, ?_, hPresents.container.symm, fun i hi => ?_, fun v => ?_⟩
      · rw [← List.map_take, List.take_range, min_eq_left hk] at hAfter
        rw [solverAfter, hBuilt]
        exact hAfter
      · rw [hTotal, size_eq, leastTotal]
      · have hColumn := getElem?_columns hi
        have hWidth := hEvenly.widths _ (List.mem_of_getElem? hColumn)
        have hLeft := hEvenly.lefts i _ hColumn
        refine ⟨_, hColumn, hWidth, ?_⟩
        rw [hLeft, hWidth, zero_add]
      · rw [← hStart, hReplay]

/-- Two columns with a gap, in a container that grows past what they need at least. -/
def growingPair : ColumnRequest Rat := ⟨2, ⟨100, 140, 20⟩, 10, 50⟩

/-- In the first frame they are held at their least width, in the last one they have grown. -/
theorem frames_evenly_of_growingPair : ∃ frames, growingPair.frames = .ok frames ∧
    frames.length = 3 ∧ ∃ first last s, frames[0]? = some first ∧ first.container = 110 ∧
      frames[2]? = some last ∧ last.container = 140 ∧ growingPair.solverAfter 3 = .ok s ∧
      s.getValue ⟨5⟩ = 65 ∧ s.getValue ⟨3⟩ = 75 ∧
      ∀ v, replay (fun _ => 0) (frames.take 3) v = s.getValue v := by
  have hPlayed : growingPair.frames.isOk = true := by
    decide +kernel
  have hPivots : ∀ limit, growingPair.frames ≠
      .error (.solver (.breakdown (.iterationLimitExceeded limit))) := by
    intro limit hStuck
    rw [hStuck] at hPlayed
    cases hPlayed
  obtain ⟨frames, hFrames, hLength, hEach⟩ := frames_evenly_of_range growingPair 3 (by decide)
    (by decide +kernel) hPivots
  obtain ⟨first, _, hFirst, _, hLeast, _⟩ := hEach 0 (by decide)
  obtain ⟨last, s, hLast, hAfter, hTotal, _, hColumns, hReplay⟩ := hEach 2 (by decide)
  obtain ⟨column, hColumn, hWidth, hLeft⟩ := hColumns 1 (by decide)
  obtain rfl : ⟨⟨3⟩, ⟨5⟩⟩ = column := Option.some.inj hColumn
  have hStart : first.container = 110 := hLeast.trans (by norm_num [growingPair])
  have hEnd : last.container = 140 := hTotal.trans (by norm_num [growingPair])
  have hWide : s.getValue ⟨5⟩ = 65 := hWidth.trans (by norm_num [growingPair, hEnd])
  have hSecond : s.getValue ⟨3⟩ = 75 := hLeft.trans (by norm_num [growingPair, hWide])
  exact ⟨frames, hFrames, hLength, first, last, s, hFirst, hStart, hLast, hEnd, hAfter, hWide, hSecond,
    hReplay⟩

end SoftSimplex.Layout.ColumnRequest
