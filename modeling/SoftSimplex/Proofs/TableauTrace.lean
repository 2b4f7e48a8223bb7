import SoftSimplex.Proofs.SolvedForm
import SoftSimplex.Tableau.Dual
import SoftSimplex.Tableau.EditShift
import SoftSimplex.Tableau.MarkerRemoval

/-!
# The steps of the passes

A pass is traced by its steps: it pivots, and a dual pass also cuts its queue down. Replaying the steps
from the tableau that the pass starts with gives the tableau that it ends with, and this holds of a pass
that breaks down as well. A phase one is a primal pass and the retirement of its fresh symbol, which
takes at most one pivot more.

What a step solves, which symbols it exchanges and which one it lets in unseen by the queue is read off
the step. So one trace serves every question on what has happened in a run.
-/

namespace SoftSimplex.Tableau
set_option autoImplicit false

/-- The symbols that a pivot exchanges. -/
structure Pivot where
  leaving : Symbol
  entering : Symbol
  deriving DecidableEq

/-- What asks for a pivot. -/
inductive Stage where
  | primal
  | dual
  /-- The fresh symbol of a phase one has to leave. -/
  | retirement

/-- What changes the rows of a tableau or its queue. -/
inductive Step (α : Type) where
  /-- A new row is solved for the subject. -/
  | install (subject : Symbol) (row : Row α)
  | pivot (stage : Stage) (leaving : Symbol) (row : Row α) (entering : Symbol)
  /-- The queue is cut down to its rest. -/
  | requeue (rest : List Symbol)
  /-- A phase one begins, with a row for its fresh symbol. -/
  | start (fresh : Symbol) (row : Row α)
  | strike (s : Symbol)
  | erase (s : Symbol)
  /-- A phase one is given up, and its pivots with it. -/
  | rollBack (pivots : List Pivot)
  /-- The marker of a constraint is dropped. -/
  | drop (marker : Symbol)
  /-- The constant of an equation moves. -/
  | shift (tag : Tag) (delta : α)
  | reset

variable {α : Type} [Scalar α]

/-- The tableau that a phase one starts from. -/
def phaseOneStart (t : Tableau α) (fresh : Symbol) (row : Row α) : Tableau α :=
  { t.insertRow fresh row with artificial := some row }

namespace Step

def perform (t : Tableau α) : Step α → Tableau α
  | .install subject row => t.install row subject
  | .pivot _ leaving row entering => t.pivot leaving row entering
  | .requeue rest => { t with infeasible := rest }
  | .start fresh row => t.phaseOneStart fresh row
  | .strike s => t.strike s
  | .erase s => t.eraseRow s
  | .rollBack _ => t
  | .drop marker => (t.dropMarker? marker).getD t
  | .shift tag delta => t.shiftEdit tag delta
  | .reset => .empty

/-- The symbol that a step lets in behind the back of the queue, with the value that it enters with. A dual
pivot lets in nothing that is below zero. -/
def entry? : Step α → Option (Symbol × α)
  | .pivot .primal leaving row entering | .pivot .retirement leaving row entering =>
    some (entering, (row.exchange leaving entering).constant)
  | _ => none

/-- The row that a step solves, before it is solved, with the symbol that it is solved for. -/
def solving? : Step α → Option (Symbol × Row α)
  | .install subject row => some (subject, row)
  | .pivot _ leaving row entering => some (entering, row.addSymbol leaving (-1))
  | _ => none

omit [Scalar α] in
/-- The pivots that a step makes, whether they stand or not. -/
def pivots : Step α → List Pivot
  | .pivot _ leaving _ entering => [⟨leaving, entering⟩]
  | .rollBack pivots => pivots
  | _ => []

end Step

/-- The tableau after the steps. -/
def replay (t : Tableau α) (steps : List (Step α)) : Tableau α := steps.foldl Step.perform t

theorem replay_append (t : Tableau α) (steps more : List (Step α)) :
    t.replay (steps ++ more) = (t.replay steps).replay more := List.foldl_append

def primalSteps (goal : Goal) (budget : Nat) (t : Tableau α) : List (Step α) :=
  match t.entering? goal with
  | none => []
  | some entering =>
    match budget with
    | 0 => []
    | left + 1 =>
      match t.leavingRow? entering with
      | none => []
      | some (leaving, row) =>
        .pivot .primal leaving row entering :: primalSteps goal left (t.pivot leaving row entering)

def dualSteps (budget : Nat) (t : Tableau α) : List (Step α) :=
  match nextViolated? t.rows t.infeasible with
  | none => [.requeue []]
  | some (leaving, row, rest) =>
    let popped := { t with infeasible := rest }
    match popped.dualEntering? row with
    | none => [.requeue rest]
    | some entering =>
      match budget with
      | 0 => [.requeue rest]
      | left + 1 => .requeue rest :: .pivot .dual leaving row entering ::
          dualSteps left (popped.pivot leaving row entering)

/-- A dual pass follows if the primal pass has come to its end. -/
def settleSteps (limit : Nat) (t : Tableau α) : List (Step α) :=
  primalSteps .primary limit t ++
    match t.optimize .primary limit with
    | ⟨.ok _, u⟩ => u.dualSteps limit
    | _ => []

/-- How the fresh symbol of a phase one leaves. It takes a pivot if it is basic in a row with a symbol that
can be basic in its place. -/
def retiredSteps (t : Tableau α) (fresh : Symbol) : List (Step α) :=
  match t.rows.get? fresh with
  | none => [.strike fresh]
  | some row =>
    if row.isConstant then [.erase fresh]
    else match row.firstPivotable? with
      | none => [.erase fresh]
      | some entering => [.pivot .retirement fresh row entering, .strike fresh]

def phaseOneSteps (limit : Nat) (fresh : Symbol) (row : Row α) (t : Tableau α) : List (Step α) :=
  let start := t.phaseOneStart fresh row
  .start fresh row :: (primalSteps .artificial limit start ++
    match start.optimize .artificial limit with
    | ⟨.ok _, u⟩ => { u with artificial := none }.retiredSteps fresh
    | _ => [])

section Queue

variable {rows : SymbolMap (Row α)} {queue rest : List Symbol} {leaving : Symbol} {row : Row α}

theorem nextViolated?_eq_some (h : nextViolated? rows queue = some (leaving, row, rest)) :
    leaving ∈ queue ∧ (∀ s ∈ rest, s ∈ queue) ∧ rows.get? leaving = some row ∧
      needsRepair row = true := by
  induction queue with
  | nil => cases h
  | cons s tail ih =>
    have hLater : nextViolated? rows tail = some (leaving, row, rest) →
        leaving ∈ s :: tail ∧ (∀ c ∈ rest, c ∈ s :: tail) ∧ rows.get? leaving = some row ∧
          needsRepair row = true := by
      intro hTail
      obtain ⟨hMem, hRest, hRow, hRepair⟩ := ih hTail
      exact ⟨List.mem_cons_of_mem _ hMem, fun c hc => List.mem_cons_of_mem _ (hRest c hc), hRow,
        hRepair⟩
    rw [nextViolated?] at h
    split at h
    · exact hLater h
    · rename_i found hGet
      split at h
      · rename_i hRepair
        cases h
        exact ⟨List.mem_cons_self, fun c hc => List.mem_cons_of_mem _ hc, hGet, hRepair⟩
      · exact hLater h

theorem nextViolated?_eq_none (h : nextViolated? rows queue = none) {s : Symbol} (hs : s ∈ queue)
    (hRow : rows.get? s = some row) : needsRepair row = false := by
  induction queue with
  | nil => cases hs
  | cons c tail ih =>
    rw [nextViolated?] at h
    split at h
    · rename_i hGet
      rcases List.mem_cons.mp hs with rfl | hs
      · cases hGet.symm.trans hRow
      · exact ih h hs
    · rename_i found hGet
      split at h
      · cases h
      · rename_i hRepair
        rcases List.mem_cons.mp hs with rfl | hs
        · obtain rfl : found = row := Option.some.inj (hGet.symm.trans hRow)
          simpa using hRepair
        · exact ih h hs

end Queue

section Induction

variable {P : List (Step α) → Tableau α → Prop} {goal : Goal} {limit : Nat}

/-- What the pivots of a primal pass keep true of the steps so far and the tableau is true of all its steps
and the tableau after it, however it ends. -/
theorem primal_trace
    (hPivot : ∀ steps t entering leaving row, P steps t → t.entering? goal = some entering →
      t.leavingRow? entering = some (leaving, row) →
      P (steps ++ [.pivot .primal leaving row entering]) (t.pivot leaving row entering))
    (budget : Nat) (steps : List (Step α)) {t : Tableau α} (h : P steps t) :
    P (steps ++ primalSteps goal budget t) (optimizeWithin goal limit budget t).state := by
  induction budget generalizing steps t with
  | zero =>
    rw [optimizeWithin, primalSteps]
    cases t.entering? goal <;> rwa [List.append_nil]
  | succ left ih =>
    rw [optimizeWithin, primalSteps]
    cases hEntering : t.entering? goal with
    | none => rwa [List.append_nil]
    | some entering =>
      dsimp only
      cases hLeaving : t.leavingRow? entering with
      | none => rwa [List.append_nil]
      | some found =>
        obtain ⟨leaving, row⟩ := found
        have hLater := ih _ (hPivot steps t entering leaving row h hEntering hLeaving)
        rwa [List.append_assoc] at hLater

section Dual

variable
  (hQueue : ∀ steps t rest, P steps t → (∀ s ∈ rest, s ∈ t.infeasible) →
    P (steps ++ [.requeue rest]) ({ t with infeasible := rest } : Tableau α))
  (hRepair : ∀ steps t leaving row rest entering, P steps t →
    nextViolated? t.rows t.infeasible = some (leaving, row, rest) →
    ({ t with infeasible := rest } : Tableau α).dualEntering? row = some entering →
    P (steps ++ [.requeue rest, .pivot .dual leaving row entering])
      (({ t with infeasible := rest } : Tableau α).pivot leaving row entering))
include hQueue hRepair

/-- The same for a dual pass, whose steps cut the queue down and pivot. -/
theorem dual_trace (budget : Nat) (steps : List (Step α)) {t : Tableau α} (h : P steps t) :
    P (steps ++ dualSteps budget t) (dualOptimizeWithin limit budget t).state := by
  induction budget generalizing steps t with
  | zero =>
    rw [dualOptimizeWithin, dualSteps]
    cases hNext : nextViolated? t.rows t.infeasible with
    | none => exact hQueue steps t [] h (List.forall_mem_nil _)
    | some found =>
      obtain ⟨leaving, row, rest⟩ := found
      have hPopped := hQueue steps t rest h (nextViolated?_eq_some hNext).2.1
      dsimp only
      cases ({ t with infeasible := rest } : Tableau α).dualEntering? row <;> exact hPopped
  | succ left ih =>
    rw [dualOptimizeWithin, dualSteps]
    cases hNext : nextViolated? t.rows t.infeasible with
    | none => exact hQueue steps t [] h (List.forall_mem_nil _)
    | some found =>
      obtain ⟨leaving, row, rest⟩ := found
      dsimp only
      cases hEntering : ({ t with infeasible := rest } : Tableau α).dualEntering? row with
      | none => exact hQueue steps t rest h (nextViolated?_eq_some hNext).2.1
      | some entering =>
        have hLater := ih _ (hRepair steps t leaving row rest entering h hNext hEntering)
        rwa [List.append_assoc] at hLater

theorem settle_trace
    (hPivot : ∀ steps t entering leaving row, P steps t → t.entering? .primary = some entering →
      t.leavingRow? entering = some (leaving, row) →
      P (steps ++ [.pivot .primal leaving row entering]) (t.pivot leaving row entering))
    (steps : List (Step α)) {t : Tableau α} (h : P steps t) :
    P (steps ++ settleSteps limit t) (t.settle limit).state := by
  have hPrimal : P _ (t.optimize .primary limit).state := primal_trace hPivot limit steps h
  rw [settle, settleSteps, ← List.append_assoc]
  generalize t.optimize .primary limit = pass at hPrimal
  obtain ⟨result, u⟩ := pass
  cases result with
  | error cause => rwa [List.append_nil]
  | ok _ => exact dual_trace hQueue hRepair limit _ hPrimal

end Dual

/-- What holds of the tableau alone. -/
theorem optimizeWithin_induction {P : Tableau α → Prop}
    (hPivot : ∀ t entering leaving row, P t → t.entering? goal = some entering →
      t.leavingRow? entering = some (leaving, row) → P (t.pivot leaving row entering))
    (budget : Nat) {t : Tableau α} (h : P t) : P (optimizeWithin goal limit budget t).state :=
  primal_trace (P := fun _ u => P u) (fun _ => hPivot) budget [] h

theorem dualOptimizeWithin_state_induction {P : Tableau α → Prop}
    (hQueue : ∀ t rest, P t → (∀ s ∈ rest, s ∈ t.infeasible) →
      P ({ t with infeasible := rest } : Tableau α))
    (hRepair : ∀ t leaving row rest entering, P t →
      nextViolated? t.rows t.infeasible = some (leaving, row, rest) →
      ({ t with infeasible := rest } : Tableau α).dualEntering? row = some entering →
      P (({ t with infeasible := rest } : Tableau α).pivot leaving row entering))
    (budget : Nat) {t : Tableau α} (h : P t) : P (dualOptimizeWithin limit budget t).state :=
  dual_trace (P := fun _ u => P u) (fun _ => hQueue) (fun _ => hRepair) budget [] h

end Induction

section Replay

variable {goal : Goal} (t : Tableau α)

/-- The steps of a primal pass make its tableau. -/
theorem optimizeWithin_state (limit budget : Nat) :
    (optimizeWithin goal limit budget t).state = t.replay (primalSteps goal budget t) := by
  refine primal_trace (P := fun steps u => u = t.replay steps) ?_ budget [] rfl
  rintro steps _ entering leaving row rfl _ _
  rw [replay_append]
  rfl

/-- The steps of a dual pass make its tableau, its queue included. -/
theorem dualOptimizeWithin_state (limit budget : Nat) :
    (dualOptimizeWithin limit budget t).state = t.replay (dualSteps budget t) := by
  refine dual_trace (P := fun steps u => u = t.replay steps) ?_ ?_ budget [] rfl
  · rintro steps _ rest rfl _
    rw [replay_append]
    rfl
  · rintro steps _ leaving row rest entering rfl _ _
    rw [replay_append]
    rfl

theorem settle_state (limit : Nat) : (t.settle limit).state = t.replay (settleSteps limit t) := by
  have hPrimal : (t.optimize .primary limit).state = t.replay (primalSteps .primary limit t) :=
    t.optimizeWithin_state limit limit
  rw [settle, settleSteps, replay_append, ← hPrimal]
  generalize t.optimize .primary limit = pass
  obtain ⟨result, u⟩ := pass
  cases result with
  | error cause => rfl
  | ok _ => exact u.dualOptimizeWithin_state limit limit

end Replay

section PhaseOne

variable {t u : Tableau α} {fresh : Symbol} {row : Row α} {limit : Nat} {verdict : Bool}

/-- How the fresh symbol of a phase one leaves the tableau, and the steps that this takes. -/
inductive Retires (t : Tableau α) (fresh : Symbol) : List (Step α) → Tableau α → Prop where
  | struck (absent : t.rows.get? fresh = none) : Retires t fresh [.strike fresh] (t.strike fresh)
  | erased {row : Row α} (basic : t.rows.get? fresh = some row) :
      Retires t fresh [.erase fresh] (t.eraseRow fresh)
  | exchanged {row : Row α} {entering : Symbol} (basic : t.rows.get? fresh = some row)
      (pivotable : row.firstPivotable? = some entering) :
      Retires t fresh [.pivot .retirement fresh row entering, .strike fresh]
        ((t.pivot fresh row entering).strike fresh)

theorem retires (t : Tableau α) (fresh : Symbol) (verdict : Bool) :
    t.Retires fresh (t.retiredSteps fresh) (t.retire fresh verdict).2 := by
  rw [retire, retiredSteps]
  cases hGet : t.rows.get? fresh with
  | none => exact .struck hGet
  | some row =>
    dsimp only
    split
    · exact .erased hGet
    · cases hPivotable : row.firstPivotable? with
      | none => exact .erased hGet
      | some entering => exact .exchanged hGet hPivotable

theorem insertArtificially_eq (t : Tableau α) (limit : Nat) (fresh : Symbol) (row : Row α) :
    t.insertArtificially limit fresh row =
      match (t.phaseOneStart fresh row).optimize .artificial limit with
      | ⟨.error cause, u⟩ => .failed cause { u with artificial := none }
      | ⟨.ok _, u⟩ => .done ({ u with artificial := none }.retire fresh u.reachedZero).1
          ({ u with artificial := none }.retire fresh u.reachedZero).2 := rfl

/-- A phase one that comes to a verdict ends with the retirement of its fresh symbol. -/
theorem retires_of_insertArtificially
    (hOk : t.insertArtificially limit fresh row = ⟨.ok verdict, u⟩) :
    ∃ v last, ((t.phaseOneStart fresh row).optimize .artificial limit).state = v ∧
      t.phaseOneSteps limit fresh row = .start fresh row ::
        (primalSteps .artificial limit (t.phaseOneStart fresh row) ++ last) ∧
      ({ v with artificial := none } : Tableau α).Retires fresh last u := by
  rw [insertArtificially_eq] at hOk
  rw [phaseOneSteps]
  generalize (t.phaseOneStart fresh row).optimize .artificial limit = pass at hOk ⊢
  obtain ⟨result, v⟩ := pass
  cases result with
  | error cause => cases hOk
  | ok _ =>
    have hRetires := ({ v with artificial := none } : Tableau α).retires fresh v.reachedZero
    obtain rfl := (Attempt.mk.inj hOk).2
    exact ⟨v, _, rfl, rfl, hRetires⟩

end PhaseOne

section SameBasis

/-- The rows and the queue are the same. Nothing else decides what a step makes of them. -/
structure SameBasis (t u : Tableau α) : Prop where
  rows : u.rows = t.rows
  queue : u.infeasible = t.infeasible

variable {t u v : Tableau α} {s fresh leaving entering : Symbol} {row : Row α}

section Frame

omit [Scalar α]

theorem SameBasis.refl (t : Tableau α) : t.SameBasis t := ⟨rfl, rfl⟩

theorem SameBasis.trans (h : t.SameBasis u) (hMore : u.SameBasis v) : t.SameBasis v :=
  ⟨hMore.rows.trans h.rows, hMore.queue.trans h.queue⟩

variable (h : t.SameBasis u)
include h

theorem SameBasis.touch : (t.touch s).SameBasis (u.touch s) := by
  constructor
  · rw [rows_touch, rows_touch, h.rows]
  · rw [infeasible_touch, infeasible_touch, h.queue]

theorem SameBasis.eraseRow : (t.eraseRow s).SameBasis (u.eraseRow s) :=
  ⟨congrArg (·.erase s) h.rows, h.queue⟩

theorem SameBasis.insertRow : (t.insertRow s row).SameBasis (u.insertRow s row) :=
  ⟨congrArg (·.insert s row) h.rows, h.queue⟩

theorem SameBasis.strike : (t.strike s).SameBasis (u.strike s) :=
  ⟨congrArg (·.mapValues fun _ r => r.remove s) h.rows, h.queue⟩

end Frame

section Steps

variable (h : t.SameBasis u)
include h

theorem SameBasis.substitute : (t.substitute s row).SameBasis (u.substitute s row) := by
  constructor
  · exact congrArg (·.mapValues fun _ r => r.substitute s row) h.rows
  · unfold Tableau.substitute
    rw [h.rows, h.queue]

theorem SameBasis.eliminate :
    (t.eliminate leaving row entering).SameBasis (u.eliminate leaving row entering) :=
  h.eraseRow.substitute.touch

theorem SameBasis.dropMarker (marker : Symbol) :
    ((t.dropMarker? marker).getD t).SameBasis ((u.dropMarker? marker).getD u) := by
  have hLeaving : u.markerLeavingRow? marker = t.markerLeavingRow? marker := by
    unfold markerLeavingRow? markerRows
    rw [h.rows]
  rw [dropMarker?, dropMarker?, h.rows, hLeaving]
  cases t.rows.get? marker with
  | some row => exact h.eraseRow
  | none =>
    cases t.markerLeavingRow? marker with
    | none => exact h
    | some found => exact h.eliminate

theorem SameBasis.addToBasic {x : α} : (t.addToBasic s row x).SameBasis (u.addToBasic s row x) := by
  unfold Tableau.addToBasic
  dsimp only
  split
  · exact ⟨h.insertRow.rows, congrArg (s :: ·) h.queue⟩
  · exact h.insertRow

theorem SameBasis.moveMarker {δ : α} : (t.moveMarker s δ).SameBasis (u.moveMarker s δ) := by
  unfold Tableau.moveMarker
  dsimp only
  rw [h.rows, h.queue]
  exact ⟨rfl, rfl⟩

theorem SameBasis.shiftEdit (tag : Tag) (δ : α) : (t.shiftEdit tag δ).SameBasis (u.shiftEdit tag δ) := by
  rw [Tableau.shiftEdit, Tableau.shiftEdit, h.rows]
  split
  · exact h.addToBasic
  · split
    · exact h.addToBasic
    · exact h.moveMarker

theorem SameBasis.perform (step : Step α) : (step.perform t).SameBasis (step.perform u) := by
  cases step with
  | install subject row => exact h.substitute.touch.insertRow
  | pivot _ leaving row entering => exact h.eliminate.touch.insertRow
  | requeue rest => exact ⟨h.rows, rfl⟩
  | start fresh row => exact ⟨h.insertRow.rows, h.queue⟩
  | strike s => exact h.strike
  | erase s => exact h.eraseRow
  | rollBack _ => exact h
  | drop marker => exact h.dropMarker marker
  | shift tag δ => exact h.shiftEdit tag δ
  | reset => exact .refl _

theorem SameBasis.replay (steps : List (Step α)) : (t.replay steps).SameBasis (u.replay steps) := by
  induction steps generalizing t u with
  | nil => exact h
  | cons step rest ih => exact ih (h.perform step)

end Steps

theorem Retires.eq_replay {last : List (Step α)} (h : t.Retires fresh last u) : u = t.replay last := by
  cases h <;> rfl

/-- The steps of a phase one make its rows, with any verdict and after a breakdown. -/
theorem sameBasis_insertArtificially (t : Tableau α) (limit : Nat) (fresh : Symbol) (row : Row α) :
    (t.replay (t.phaseOneSteps limit fresh row)).SameBasis
      (t.insertArtificially limit fresh row).state := by
  have hPass : ((t.phaseOneStart fresh row).optimize .artificial limit).state =
      (t.phaseOneStart fresh row).replay (primalSteps .artificial limit (t.phaseOneStart fresh row)) :=
    optimizeWithin_state _ limit limit
  change ((t.phaseOneStart fresh row).replay (_ ++ _)).SameBasis _
  rw [insertArtificially_eq, replay_append, ← hPass]
  generalize (t.phaseOneStart fresh row).optimize .artificial limit = pass
  obtain ⟨result, u⟩ := pass
  cases result with
  | error cause => exact ⟨rfl, rfl⟩
  | ok _ =>
    have hBare : u.SameBasis { u with artificial := none } := ⟨rfl, rfl⟩
    have hEnd := (retires { u with artificial := none } fresh u.reachedZero).eq_replay
    exact (hBare.replay _).trans (hEnd ▸ .refl _)

end SameBasis

end SoftSimplex.Tableau
