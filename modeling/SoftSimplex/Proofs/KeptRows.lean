import SoftSimplex.Proofs.MarkerDrop
import SoftSimplex.Proofs.MovedConstants

/-!
# Rows that an operation leaves alone

A step over the tableau touches the rows of the symbols that enter, leave or are solved for, and the
rows that have the replaced column as a cell. The rows of any set of symbols apart from these are the
same before and after, entry for entry.
-/

namespace SoftSimplex.Tableau
set_option autoImplicit false

variable {α : Type} {t u v : Tableau α} {F : Set Symbol} {row : Row α}
  {leaving entering s : Symbol}

/-- The rows of some symbols are the same in two tableaus. -/
def SameRows (F : Set Symbol) (t u : Tableau α) : Prop :=
  ∀ e : Symbol × Row α, e.1 ∈ F → (e ∈ u.rows.entries ↔ e ∈ t.rows.entries)

/-- No row of some symbols has a column as a cell. -/
def Shuns (F : Set Symbol) (t : Tableau α) (s : Symbol) : Prop :=
  ∀ e ∈ t.rows.entries, e.1 ∈ F → e.2.AllColumns fun c => c.id ≠ s.id

/-- The rows of some symbols mention these symbols only. -/
def Closed (F : Set Symbol) (t : Tableau α) : Prop :=
  ∀ e ∈ t.rows.entries, e.1 ∈ F → e.2.AllColumns (· ∈ F)

theorem SameRows.of_rows_eq (hRows : u.rows = t.rows) : t.SameRows F u := by
  intro e _
  rw [hRows]

theorem SameRows.trans (h : t.SameRows F u) (hMore : u.SameRows F v) : t.SameRows F v :=
  fun e he => (hMore e he).trans (h e he)

theorem Closed.of_sameRows (h : t.Closed F) (hSame : t.SameRows F u) : u.Closed F :=
  fun e he hF => h e ((hSame e hF).mp he) hF

theorem Closed.shuns {issued : Set Symbol} (h : t.Closed F) (hDistinct : Set.InjOn Symbol.id issued)
    (hSolved : t.Solved issued) (hs : s ∈ issued) (hNot : s ∉ F) : t.Shuns F s :=
  fun e he hF => avoids_of_kind hDistinct (hSolved.columns.rows e he) hs (h e he hF) hNot

/-- Rows that a map leaves as they are. -/
theorem sameRows_mapValues (f : Symbol → Row α → Row α) (hRows : u.rows = t.rows.mapValues f)
    (hFix : ∀ e ∈ t.rows.entries, e.1 ∈ F → f e.1 e.2 = e.2) : t.SameRows F u := by
  intro e he
  rw [hRows, SymbolMap.mem_mapValues_iff]
  constructor
  · rintro ⟨d, hd, rfl⟩
    rw [hFix d hd he]
    exact hd
  · intro hMem
    exact ⟨e, hMem, Prod.ext rfl (hFix e hMem he).symm⟩

theorem sameRows_eraseRow (hKey : s ∈ t.rows.keys) (hs : s ∉ F) : t.SameRows F (t.eraseRow s) := by
  intro e he
  refine SymbolMap.mem_erase_iff.trans (and_iff_left_of_imp fun hMem hId => hs ?_)
  exact SymbolMap.key_eq_of_id_eq (SymbolMap.mem_keys_of_mem hMem) hKey hId ▸ he

theorem sameRows_insertRow (hNew : ∀ b ∈ t.rows.keys, b.id ≠ s.id) (hs : s ∉ F) :
    t.SameRows F (t.insertRow s row) := by
  intro e he
  refine (SymbolMap.mem_insert_iff hNew).trans (or_iff_right ?_)
  rintro rfl
  exact hs he

theorem sameRows_strike (hShuns : t.Shuns F s) : t.SameRows F (t.strike s) :=
  sameRows_mapValues (fun _ r => r.remove s) rfl fun e he hF =>
    Row.remove_of_avoids (hShuns e he hF)

section Steps

variable [Scalar α]

theorem sameRows_substitute (hShuns : t.Shuns F s) : t.SameRows F (t.substitute s row) :=
  sameRows_mapValues (fun _ r => r.substitute s row) rfl fun e he hF =>
    Row.substitute_of_avoids (hShuns e he hF)

theorem sameRows_eliminate (hKey : leaving ∈ t.rows.keys) (hLeaving : leaving ∉ F)
    (hShuns : t.Shuns F entering) : t.SameRows F (t.eliminate leaving row entering) := by
  have hErase := sameRows_eraseRow hKey hLeaving
  have hStill : (t.eraseRow leaving).Shuns F entering := fun e he hF =>
    hShuns e ((hErase e hF).mp he) hF
  exact (hErase.trans (sameRows_substitute hStill)).trans (.of_rows_eq (rows_touch _ _))

/-- What enters from outside pushes out a symbol from outside. -/
theorem Closed.sameRows_pivot {issued : Set Symbol} (h : t.Closed F)
    (hDistinct : Set.InjOn Symbol.id issued) (hSolved : t.Solved issued)
    (hPivot : t.Exchangeable leaving row entering) (hEntering : entering ∉ F) :
    t.SameRows F (t.pivot leaving row entering) := by
  have hLeaving : leaving ∉ F := fun hIn =>
    hEntering (h _ hPivot.row_mem hIn entering hPivot.entering_mem)
  have hIssued := hSolved.columns.rows _ hPivot.row_mem entering hPivot.entering_mem
  have hEliminate : t.SameRows F (t.eliminate leaving row entering) :=
    sameRows_eliminate (SymbolMap.mem_keys_of_mem hPivot.row_mem) hLeaving
      (h.shuns hDistinct hSolved hIssued hEntering)
  refine (hEliminate.trans (.of_rows_eq (rows_touch _ entering))).trans ?_
  refine sameRows_insertRow ?_ hEntering
  rw [rows_touch]
  exact hSolved.entering_new hPivot.toCrossing

theorem sameRows_install (hNew : ∀ b ∈ t.rows.keys, b.id ≠ s.id) (hs : s ∉ F)
    (hShuns : t.Shuns F s) : t.SameRows F (t.install row s) := by
  have hSubstitute : t.SameRows F (t.substitute s (row.solveFor s)) := sameRows_substitute hShuns
  refine (hSubstitute.trans (.of_rows_eq (rows_touch _ s))).trans ?_
  refine sameRows_insertRow ?_ hs
  rw [rows_touch, keys_substitute]
  exact hNew

theorem sameRows_addToBasic {x : α} (hRow : (s, row) ∈ t.rows.entries) (hs : s ∉ F) :
    t.SameRows F (t.addToBasic s row x) := by
  intro e he
  rw [mem_addToBasic_iff hRow]
  constructor
  · rintro (rfl | ⟨hMem, _⟩)
    · exact absurd he hs
    · exact hMem
  · intro hMem
    refine .inr ⟨hMem, fun hId => hs ?_⟩
    rwa [SymbolMap.eq_of_mem_of_id_eq hMem hRow hId] at he

end Steps

end SoftSimplex.Tableau
