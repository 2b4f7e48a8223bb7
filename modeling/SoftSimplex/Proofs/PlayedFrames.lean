import SoftSimplex.Proofs.FollowedRules
import SoftSimplex.Layout.Columns

/-!
# Frames that are played

Each frame moves the size that a solver follows and fetches the changes. They lead from the values that
callers read before the frame to those that they read after it, so replaying frames gives the values after
the last one.
-/

namespace SoftSimplex
set_option autoImplicit false

section Changes

/-- Changes to the values of a target lead there from values that differ nowhere else. -/
theorem foldl_update_eq {α : Type} {changes : List (Variable × α)} {target : Variable → α}
    (hValues : ∀ c ∈ changes, c.2 = target c.1) (values : Variable → α)
    (hRest : ∀ u, u ∉ changes.map Prod.fst → values u = target u) :
    changes.foldl (fun values c => Function.update values c.1 c.2) values = target := by
  induction changes generalizing values with
  | nil => exact funext fun u => hRest u List.not_mem_nil
  | cons c rest ih =>
    obtain ⟨hFirst, hOthers⟩ := List.forall_mem_cons.mp hValues
    refine ih hOthers _ fun u hu => ?_
    dsimp only
    by_cases hSame : u = c.1
    · rw [hSame, Function.update_self, hFirst]
    · rw [Function.update_of_ne hSame]
      exact hRest u (by simp [hSame, hu])

variable {s : Solver Rat}

theorem Solver.Current.getValue_eq_solvedValue (h : s.Current) :
    s.fetchChanges.2.getValue = s.fetchChanges.2.solvedValue := by
  funext u
  exact beq_iff_eq.mp (Solver.getValue_fetchChanges h (beq_self_eq_true _))

/-- The reported changes lead from the values that callers read before a fetch to those after it. -/
theorem Solver.Current.foldl_changes (h : s.Current) :
    s.fetchChanges.1.foldl (fun values c => Function.update values c.1 c.2) s.getValue =
      s.fetchChanges.2.getValue := by
  refine foldl_update_eq (fun c hc => ?_) _ fun u hu => ?_
  · exact beq_iff_eq.mp (changes_beq_getValue h hc (beq_self_eq_true _))
  · rw [mem_changes_fst_iff h (beq_self_eq_true _), Bool.not_eq_false] at hu
    exact (beq_iff_eq.mp hu).symm

end Changes

namespace Layout

open Solver (OutOfPivots editConstraint)

section Frames

variable {α : Type} [Scalar α]

/-- The values after the changes of a frame. -/
def Frame.apply (f : Frame α) (values : Variable → α) : Variable → α :=
  f.changes.foldl (fun values c => Function.update values c.var c.value) values

/-- The values after the changes of frames in turn. -/
def replay (values : Variable → α) (frames : List (Frame α)) : Variable → α :=
  frames.foldl (fun values f => f.apply values) values

/-- The solver that frames of the given sizes leave behind. -/
def played (container : Variable) (s : Solver α) : List α → Except LayoutError (Solver α)
  | [] => .ok s
  | size :: rest =>
    match playFrame s container size with
    | .ok (_, s) => played container s rest
    | .error e => .error e

end Frames

section Playing

variable {rules : List (Rule Rat)} {first : Nat} {v : Variable} {s : Solver Rat} {size : Rat}

/-- What a frame leaves behind: a solver that follows its size, where callers read the solved values. -/
structure Presents (first : Nat) (rules : List (Rule Rat)) (v : Variable) (size : Rat)
    (frame : Frame Rat) (after : Solver Rat) : Prop where
  follows : Follows first rules v size after
  reads : after.getValue = after.solvedValue
  container : frame.container = after.getValue v

theorem Follows.suggestValue (h : Follows first rules v size s) (later : Rat) :
    OutOfPivots (s.suggestValue v later) ∨ (s.suggestValue v later).result = .ok () ∧
      Follows first rules v later (s.suggestValue v later).state ∧
      (s.suggestValue v later).state.getValue = s.getValue := by
  obtain ⟨tag, hEntries⟩ := h.edit
  have hEdit : s.edits.get? v = some ⟨tag, editConstraint v .strong (first + rules.length), size⟩ :=
    Registry.get?_eq_some_iff.mpr (hEntries ▸ List.mem_singleton_self _)
  refine (h.inOrder.suggestValue hEdit later).imp_right ?_
  rintro ⟨hOk, hOrder, hList, hEdits, hPublished⟩
  refine ⟨hOk, ⟨hOrder, hList.trans h.constraints, tag, ?_⟩, ?_⟩
  · simp [hEdits, Registry.insert, hEntries, Registry.insertEntries]
  · funext u
    rw [Solver.getValue, hPublished, Solver.getValue]

theorem Follows.fetchChanges (h : Follows first rules v size s) :
    Follows first rules v size s.fetchChanges.2 where
  inOrder := h.inOrder.perform .fetchChanges rfl rfl
  constraints := h.constraints
  edit := h.edit

/-- A frame runs out of pivots or presents its size, and its changes lead to the values that callers read
then. -/
theorem Follows.playFrame (h : Follows first rules v size s) (later : Rat) :
    StuckOnPivots (playFrame s v later) ∨ ∃ frame after, playFrame s v later = .ok (frame, after) ∧
      Presents first rules v later frame after ∧ frame.apply s.getValue = after.getValue := by
  have hFrame : Layout.playFrame s v later = (reached (s.suggestValue v later)).bind fun next =>
      .ok (⟨next.fetchChanges.2.getValue v, next.fetchChanges.1.map fun c =>
        ⟨c.1, (next.fetchChanges.2.variableName? c.1).getD "", c.2⟩⟩, next.fetchChanges.2) := rfl
  rw [hFrame]
  rcases h.suggestValue later with hStuck | ⟨hOk, hFollows, hRead⟩
  · obtain ⟨limit, hLimit⟩ := stuck_of_outOfPivots hStuck
    exact .inl ⟨limit, by rw [hLimit]; rfl⟩
  · rw [reached_of_ok hOk]
    have hCurrent := hFollows.inOrder.current
    refine .inr ⟨_, _, rfl, ⟨hFollows.fetchChanges, hCurrent.getValue_eq_solvedValue, rfl⟩, ?_⟩
    rw [Frame.apply, List.foldl_map, ← hRead]
    exact hCurrent.foldl_changes

theorem Follows.playFrames (h : Follows first rules v size s) (done : List (Frame Rat))
    (sizes : List Rat) : StuckOnPivots (playFrames v s done sizes) ∨
      ∃ frames, playFrames v s done sizes = .ok (done.reverse ++ frames) ∧
        frames.length = sizes.length ∧ ∀ k later, sizes[k]? = some later →
          ∃ frame after, frames[k]? = some frame ∧ played v s (sizes.take (k + 1)) = .ok after ∧
            Presents first rules v later frame after ∧
            replay s.getValue (frames.take (k + 1)) = after.getValue := by
  -- the frames so far are handed on with the solver, so both vary in the induction
  induction sizes generalizing s size done with
  | nil => exact .inr ⟨[], by simp [Layout.playFrames], rfl, by simp⟩
  | cons later rest ih =>
    rw [Layout.playFrames]
    rcases h.playFrame later with ⟨limit, hLimit⟩ | ⟨frame, next, hPlay, hPresents, hApply⟩
    · exact .inl ⟨limit, by rw [hLimit]⟩
    · rw [hPlay]
      refine (ih hPresents.follows (frame :: done)).imp_right ?_
      rintro ⟨frames, hFrames, hLength, hEach⟩
      refine ⟨frame :: frames, ?_, by simp [hLength], fun k size hSize => ?_⟩
      · rw [List.reverse_cons, List.append_assoc, List.singleton_append] at hFrames
        exact hFrames
      cases k with
      | zero =>
        obtain rfl := Option.some.inj hSize
        exact ⟨frame, next, rfl, by simp [played, hPlay], hPresents, hApply⟩
      | succ k =>
        obtain ⟨last, after, hLast, hPlayed, hEnd, hReplay⟩ := hEach k size hSize
        refine ⟨last, after, hLast, ?_, hEnd, ?_⟩
        · rw [List.take_succ_cons, played, hPlay]
          exact hPlayed
        · rw [List.take_succ_cons, replay, List.foldl_cons, hApply]
          exact hReplay

end Playing

end Layout

end SoftSimplex
