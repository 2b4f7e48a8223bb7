import SoftSimplex.Proofs.CoherentInsertion
import SoftSimplex.Proofs.ConstraintInsertion
import SoftSimplex.Proofs.OperationEnds
import SoftSimplex.Proofs.PivotRuns

/-!
# The tableau that a new row is settled in

Whichever way the row of a new constraint gets its place, the tableau is then feasible, says what it
said before together with the row, and has no objective but its own. Its notes are taken off before it
is settled.
-/

namespace SoftSimplex
set_option autoImplicit false

open Tableau (Placed Fresh Lasting)

variable {issued more : Set Symbol} {s next base added : Solver Rat} {c : Constraint Rat}
  {row : Row Rat} {tag : Tag} {t u : Tableau Rat} {x : Symbol}

theorem Tableau.Placed.quiet (h : Placed issued t u row) :
    Placed issued t { u with touched := [] } row where
  regular := h.regular.mono rfl rfl fun _ hr => hr
  orderly := h.orderly.mono rfl
  feasible := h.feasible.mono rfl
  artificial := h.artificial
  absorbs := ⟨h.absorbs.rows, h.absorbs.objective, h.absorbs.size⟩
  pinned hPinned := (h.pinned hPinned).mono rfl

/-- The symbol that a row is solved for at once is not basic yet. -/
theorem Encoded.subject_new (hCode : Encoded issued more s s.mentioned c row tag next)
    (h : s.tableau.Solved issued) (hBasic : Placement.of row tag = .basic x) :
    x ∈ more ∧ ∀ b ∈ next.tableau.rows.keys, b.id ≠ x.id := by
  cases Solver.mem_of_placement hBasic with
  | inl hCell =>
    have hAddable := hCode.addable_next
    exact ⟨(hAddable.columns x hCell).1, hAddable.subject_new hCell⟩
  | inr hOwn =>
    refine ⟨(hCode.own x hOwn).1, fun b hb => (hCode.own x hOwn).2 b ?_⟩
    rw [hCode.rows] at hb
    exact h.keys b hb

namespace Solver

theorem Sound.encoded (h : s.Sound issued) (c : Constraint Rat) : ∃ more, issued ⊆ more ∧
    Encoded issued more s s.mentioned c (s.encode c).1 (s.encode c).2.1 (s.encode c).2.2 :=
  encoded_encode h.ledger.numbered h.ledger.named h.ledger.counts h.rest.regular c

/-- What settling a new row starts from. -/
structure Ready (more most : Set Symbol) (next base : Solver Rat) (row : Row Rat)
    (t : Tableau Rat) : Prop where
  wider : more ⊆ most
  numbered : Numbered most base.lastSymbol
  placed : Placed most next.tableau { t with touched := [] } row

theorem Places.ready (hPlace : Places next row tag base t)
    (hCode : Encoded issued more s s.mentioned c row tag next) (h : s.Sound issued) :
    ∃ most, Ready more most next base row t := by
  cases hPlace with
  | basic hBasic =>
    exact ⟨more, subset_rfl, hCode.numbered, (hCode.placed_install h.rest hBasic).quiet⟩
  | phaseOne hPhaseOne hPass =>
    obtain ⟨_, hKinds, j, hj, _⟩ := hCode.of_phaseOne hPhaseOne
    have hPlaced := hCode.regular.placed_of_insertArtificially hCode.numbered.distinct
      (hCode.orderly_next h.rest) (hCode.feasible_next h.rest) hCode.addable_next hKinds hCode.nonneg
      (fresh_slack hCode) hj hPass
    exact ⟨_, Set.subset_insert _ _, hCode.numbered.insert (Nat.lt_succ_self _) le_rfl rfl,
      hPlaced.quiet⟩

section Added

variable (hAdd : s.insertConstraint c = ⟨.ok tag, added⟩)
include hAdd

theorem added_eq : tag = (s.encode c).2.1 ∧ added.tracked = (s.encode c).2.2.tracked := by
  have hAdds := s.adds c
  generalize s.insertConstraint c = attempt at hAdds hAdd
  cases hAdds with
  | settled _ hPlace _ =>
    cases hAdd
    cases hPlace <;> exact ⟨rfl, rfl⟩
  | _ => cases hAdd

/-- A property that holds once the row has its place, and lasts, holds after the addition. -/
theorem Sound.lasting_added {P : Tableau Rat → Prop} (h : s.Sound issued)
    (hLasting : ∀ most, issued ⊆ most → Set.InjOn Symbol.id most → Lasting most .primary P)
    (hPlaced : ∀ base t, Places (s.encode c).2.2 (s.encode c).1 (s.encode c).2.1 base t → P t) :
    P added.tableau := by
  have hAdds := s.adds c
  generalize s.insertConstraint c = attempt at hAdds hAdd
  cases hAdds with
  | @settled base t u _ hPlace hPass =>
    cases hAdd
    obtain ⟨more, hMore, hCode⟩ := h.encoded c
    obtain ⟨most, hReady⟩ := hPlace.ready hCode h
    have hLasting := hLasting most (hMore.trans hReady.wider) hReady.numbered.distinct
    have hQuiet : P { t with touched := [] } :=
      hLasting.congr t _ rfl rfl rfl (hPlaced base t hPlace)
    have hSettled := hLasting.settle hReady.numbered.distinct hReady.placed.regular
      hReady.placed.orderly hQuiet hPass
    exact hLasting.congr u _ rfl rfl rfl hSettled
  | _ => cases hAdd

end Added

end Solver

end SoftSimplex
