import SoftSimplex.Proofs.FirstOccurrences

/-!
# Generations of changes

A log is written by marks and read by closings, in any order. The closings cut the marks into intervals;
each closing reports the interval before it, every variable once and first mark first, whatever the two
buffers have held in the generations before.
-/

namespace SoftSimplex
set_option autoImplicit false

namespace ChangeLog

inductive Event where
  | mark (v : Variable)
  | close
  deriving DecidableEq

namespace Event

def marked? : Event → Option Variable
  | .mark v => some v
  | .close => none

end Event

/-- The marks between the closings. The last interval is the open one. -/
def intervals (events : List Event) : List (List Variable) :=
  (events.splitOnP (· == .close)).map (List.filterMap Event.marked?)

/-- What the closings report, and the log after the last event. -/
def replay (log : ChangeLog) : List Event → List (List Variable) × ChangeLog
  | [] => ([], log)
  | .mark v :: rest => (log.mark v).replay rest
  | .close :: rest =>
    let (report, next) := log.close
    let (reports, last) := next.replay rest
    (report :: reports, last)

variable {log : ChangeLog} {events : List Event}

theorem replay_close (log : ChangeLog) (rest : List Event) :
    log.replay (.close :: rest) =
      (log.recording :: (log.close.2.replay rest).1, (log.close.2.replay rest).2) := rfl

theorem not_close_of_mem_marks {vs : List Variable} :
    ∀ e ∈ vs.map Event.mark, (e == Event.close) = false := by
  intro e he
  obtain ⟨v, -, rfl⟩ := List.mem_map.mp he
  rfl

theorem filterMap_marked? (vs : List Variable) :
    (vs.map Event.mark).filterMap Event.marked? = vs := by
  rw [List.filterMap_map]
  exact List.filterMap_some

theorem intervals_marks (vs : List Variable) : intervals (vs.map .mark) = [vs] := by
  rw [intervals, List.splitOnP_eq_singleton not_close_of_mem_marks, List.map_singleton,
    filterMap_marked?]

theorem intervals_close (vs : List Variable) (rest : List Event) :
    intervals (vs.map .mark ++ .close :: rest) = vs :: intervals rest := by
  rw [intervals, List.splitOnP_append_cons_of_forall_mem not_close_of_mem_marks _ rfl, List.map_cons,
    filterMap_marked?, intervals]

theorem intervals_ne_nil (events : List Event) : intervals events ≠ [] :=
  mt List.map_eq_nil_iff.mp (List.splitOnP_ne_nil _ _)

/-- A log that already holds the first occurrences of some marks goes on as if these marks stood in front
of the events. Nothing is asked of the other buffer. -/
theorem replay_of_recording {seen : List Variable} (h : log.recording = seen.eraseDups) :
    (log.replay events).1 =
        (intervals (seen.map .mark ++ events)).dropLast.map List.eraseDups ∧
      (log.replay events).2.generation = log.generation + events.count .close ∧
      (log.replay events).2.recording =
        ((intervals (seen.map .mark ++ events)).getLastD []).eraseDups := by
  induction events generalizing log seen with
  | nil =>
    rw [List.append_nil, intervals_marks]
    exact ⟨rfl, rfl, h⟩
  | cons e rest ih =>
    cases e with
    | mark v =>
      have hFront : seen.map Event.mark ++ .mark v :: rest =
          (seen ++ [v]).map Event.mark ++ rest := by
        rw [List.map_append, List.map_singleton, List.append_assoc, List.singleton_append]
      obtain ⟨hReports, hGeneration, hOpen⟩ := ih (recording_mark h v)
      have hSame : (log.mark v).generation = log.generation := by
        rw [mark]
        split <;> rfl
      rw [hFront, List.count_cons_of_ne Event.noConfusion]
      exact ⟨hReports, hSame ▸ hGeneration, hOpen⟩
    | close =>
      obtain ⟨hReports, hGeneration, hOpen⟩ := @ih log.close.2 [] rfl
      obtain ⟨first, others, hIntervals⟩ := List.exists_cons_of_ne_nil (intervals_ne_nil rest)
      have hClosed : log.close.2.generation = log.generation + 1 := rfl
      rw [replay_close, intervals_close, List.count_cons_self]
      dsimp only
      refine ⟨?_, ?_, ?_⟩
      · rw [hReports, List.dropLast_cons_of_ne_nil (intervals_ne_nil rest), List.map_cons, h,
          List.map_nil, List.nil_append]
      · rw [hGeneration, hClosed]
        omega
      · rw [hOpen, List.map_nil, List.nil_append, hIntervals]
        rfl

theorem marks_reported_of_replay (events : List Event) :
    (replay {} events).1 = (intervals events).dropLast.map List.eraseDups ∧
      (∀ report ∈ (replay {} events).1, report.Nodup) ∧
      (replay {} events).2.generation = events.count .close ∧
      (replay {} events).2.pending = ((intervals events).getLastD []).toFinset.card := by
  obtain ⟨hReports, hGeneration, hOpen⟩ :=
    @replay_of_recording {} events [] rfl
  rw [List.map_nil, List.nil_append] at hReports hOpen
  refine ⟨hReports, fun report hReport => ?_, hGeneration.trans (Nat.zero_add _), ?_⟩
  · obtain ⟨interval, -, rfl⟩ := List.mem_map.mp (hReports ▸ hReport)
    exact nodup_eraseDups interval
  · rw [pending, hOpen, length_eraseDups]

example : (replay {} [.mark ⟨1⟩, .mark ⟨2⟩, .mark ⟨1⟩, .close, .close, .mark ⟨2⟩, .close]).1 =
    [[⟨1⟩, ⟨2⟩], [], [⟨2⟩]] := by decide

end ChangeLog

end SoftSimplex
