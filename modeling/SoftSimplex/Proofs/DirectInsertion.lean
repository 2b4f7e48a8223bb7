import SoftSimplex.Proofs.BreakdownCauses
import SoftSimplex.Proofs.KeptRows

/-!
# Adding a constraint without a phase-one pass

The two columns of a constraint that need not hold have opposite signs in its row, whichever way the row
is turned, so one of them can be the subject if no variable of the caller can. Installing a row for its
subject leaves every restricted row as it is: no restricted row mentions a variable of the caller, and
none mentions a column that has just been issued.
-/

namespace SoftSimplex
set_option autoImplicit false

variable {issued more : Set Symbol} {s next : Solver Rat} {c : Constraint Rat} {row : Row Rat}
  {tag : Tag} {x : Symbol}

namespace Encoded

section Subject

variable (hCode : Encoded issued more s s.mentioned c row tag next)
  (hRest : Solver.AtRest issued s.tableau) (hBasic : Placement.of row tag = .basic x)
include hCode hRest hBasic

/-- No restricted row mentions the subject of a new row. -/
theorem shuns_subject : next.tableau.Shuns {y | y.isExternal = false} x := by
  intro e he hKind
  rcases Solver.basic_cases hBasic with ⟨hCell, hExternal⟩ | ⟨hOwn, _⟩ | ⟨rfl, _⟩
  · have hIssued := (hCode.addable_next.columns x hCell).1
    exact hCode.regular.rows_avoid_external hCode.numbered.distinct hIssued hExternal e he hKind
  · exact hCode.rows_avoid_own hRest hOwn e he
  · exact hCode.rows_avoid_own hRest tag.marker_mem_symbols e he

theorem subject_new_substituted :
    ∀ b ∈ ((next.tableau.substitute x (row.solveFor x)).touch x).rows.keys, b.id ≠ x.id := by
  rw [Tableau.rows_touch, Tableau.keys_substitute]
  exact (hCode.subject_new hRest.regular.solved hBasic).2

theorem mem_rows_install :
    (x, row.solveFor x) ∈ (next.tableau.install row x).rows.entries :=
  (SymbolMap.mem_insert_iff (hCode.subject_new_substituted hRest hBasic)).mpr (.inl rfl)

theorem mem_rows_install_iff {e : Symbol × Row Rat} (hKind : e.1.isExternal = false) :
    e ∈ (next.tableau.install row x).rows.entries ↔
      e ∈ s.tableau.rows.entries ∨ e = (x, row.solveFor x) := by
  have hSame : e ∈ (next.tableau.substitute x (row.solveFor x)).rows.entries ↔
      e ∈ next.tableau.rows.entries :=
    Tableau.sameRows_substitute (hCode.shuns_subject hRest hBasic) e hKind
  refine (SymbolMap.mem_insert_iff (hCode.subject_new_substituted hRest hBasic)).trans ?_
  rw [Tableau.rows_touch, hSame, hCode.rows, or_comm]

end Subject

/-- The row of a constraint that need not hold has a subject. -/
theorem exists_subject {m : Multiset Variable} (hCode : Encoded issued more s m c row tag next)
    (hOptional : c.isRequired = false) : ∃ x, subject? row tag = some x := by
  cases hSubject : subject? row tag with
  | none => cases hOptional.symm.trans (hCode.required_of_no_subject hSubject)
  | some x => exact ⟨x, rfl⟩

end Encoded

namespace Solver

/-- The solver whose tableau has the row of a new constraint, solved for a subject, and is still to be
settled. -/
def installed {α : Type} [Scalar α] (s : Solver α) (c : Constraint α) (subject : Symbol) : Solver α :=
  (s.encode c).2.2.absorb ((s.encode c).2.2.tableau.install (s.encode c).1 subject)

theorem insertConstraint_of_basic (hNew : s.hasConstraint c.id = false)
    (hBasic : Placement.of (s.encode c).1 (s.encode c).2.1 = .basic x) :
    s.insertConstraint c = (s.installed c x).accept c (s.encode c).2.1 := by
  rw [insertConstraint, hNew]
  dsimp only [Bool.false_eq_true, if_false]
  rw [hBasic]
  rfl

theorem Sound.insertConstraint_optional (h : s.Sound issued) (hNew : s.hasConstraint c.id = false)
    (hOptional : c.isRequired = false) :
    ∃ x, subject? (s.encode c).1 (s.encode c).2.1 = some x ∧
      s.insertConstraint c = (s.installed c x).accept c (s.encode c).2.1 := by
  obtain ⟨more, _, hCode⟩ := h.encoded c
  obtain ⟨x, hSubject⟩ := hCode.exists_subject hOptional
  refine ⟨x, hSubject, insertConstraint_of_basic hNew ?_⟩
  rw [Placement.of, hSubject]

theorem Sound.not_unsatisfiable_of_optional (h : s.Sound issued) (hNew : s.hasConstraint c.id = false)
    (hOptional : c.isRequired = false) :
    (s.insertConstraint c).result ≠ .error .unsatisfiableConstraint := by
  intro hRefused
  cases hInsert : s.insertConstraint c with
  | mk result after =>
    rw [hInsert] at hRefused
    obtain rfl : result = .error .unsatisfiableConstraint := hRefused
    cases h.breakdown_of_optional hNew hOptional hInsert

theorem Sound.not_rejected (h : s.Sound issued) (v : Variable) (w : Strength Rat) {id : Nat}
    (hNew : s.hasConstraint id = false) :
    (s.addEditVariable v w id).result ≠ .error (.breakdown .editConstraintRejected) := by
  intro hRejected
  cases h.registration_breakdown hNew hRejected

/-- After every run without a breakdown: a constraint that need not hold is placed at once and never
refused, nor is the constraint of an edit variable. Whatever is placed at once leaves the restricted rows
as they are until the tableau is settled, and a new restricted row starts at zero or above. -/
theorem direct_insertion_of_run (limit : Nat) (ops : List (Operation Rat))
    (hOk : (withPivotLimit limit : Solver Rat).RunsThrough ops) :
    let s := reached limit ops
    (∀ c, s.hasConstraint c.id = false → c.isRequired = false →
      (∃ x, subject? (s.encode c).1 (s.encode c).2.1 = some x ∧
        s.insertConstraint c = (s.installed c x).accept c (s.encode c).2.1) ∧
      (s.insertConstraint c).result ≠ .error .unsatisfiableConstraint) ∧
    (∀ v w id, s.hasConstraint id = false →
      (s.addEditVariable v w id).result ≠ .error (.breakdown .editConstraintRejected)) ∧
    ∀ c x, s.hasConstraint c.id = false →
      Placement.of (s.encode c).1 (s.encode c).2.1 = .basic x →
      s.insertConstraint c = (s.installed c x).accept c (s.encode c).2.1 ∧
      (∀ e : Symbol × Row Rat, e.1.isExternal = false →
        (e ∈ (s.installed c x).tableau.rows.entries ↔
          e ∈ s.tableau.rows.entries ∨ e = (x, (s.encode c).1.solveFor x))) ∧
      (x, (s.encode c).1.solveFor x) ∈ (s.installed c x).tableau.rows.entries ∧
      (x.isExternal = false → 0 ≤ ((s.encode c).1.solveFor x).constant) := by
  obtain ⟨issued, hSound⟩ := sound_reached hOk
  refine ⟨fun c hNew hOptional => ?_, fun v w id hNew => hSound.not_rejected v w hNew,
    fun c x hNew hBasic => ?_⟩
  · exact ⟨hSound.insertConstraint_optional hNew hOptional,
      hSound.not_unsatisfiable_of_optional hNew hOptional⟩
  · obtain ⟨more, _, hCode⟩ := hSound.encoded c
    have hPlaced := hCode.placed_install hSound.rest hBasic
    have hMem := hCode.mem_rows_install hSound.rest hBasic
    exact ⟨insertConstraint_of_basic hNew hBasic,
      fun e hKind => hCode.mem_rows_install_iff hSound.rest hBasic hKind, hMem,
      hPlaced.feasible _ hMem⟩

/-- The first of the two numbers is at three, and is to be six if possible. -/
def firstAtLeastSix : Constraint Rat :=
  .make 6 ⟨[⟨⟨1⟩, 1⟩], -6⟩ .greaterOrEqual .weak

theorem direct_insertion_of_splitOfTen :
    let s := reached 10 splitOfTen
    let t := (s.installed firstAtLeastSix ⟨.error, 11⟩).tableau
    (∃ x, subject? (s.encode firstAtLeastSix).1 (s.encode firstAtLeastSix).2.1 = some x) ∧
      (s.addEditVariable ⟨2⟩ .medium 7).result ≠ .error (.breakdown .editConstraintRejected) ∧
      (∀ e ∈ s.tableau.rows.entries, e.1.isExternal = false → e ∈ t.rows.entries) ∧
      ∃ row, (⟨.error, 11⟩, row) ∈ t.rows.entries ∧ row.constant = 3 := by
  obtain ⟨hOptional, hEdit, hDirect⟩ := direct_insertion_of_run 10 splitOfTen (by decide +kernel)
  obtain ⟨⟨x, hSubject, _⟩, _⟩ := hOptional firstAtLeastSix (by decide +kernel) (by decide +kernel)
  obtain ⟨_, hRows, hMem, _⟩ := hDirect firstAtLeastSix ⟨.error, 11⟩ (by decide +kernel)
    (by decide +kernel)
  exact ⟨⟨x, hSubject⟩, hEdit ⟨2⟩ .medium 7 (by decide +kernel),
    fun e he hKind => (hRows e hKind).mpr (.inl he), _, hMem, by decide +kernel⟩

end Solver

end SoftSimplex
