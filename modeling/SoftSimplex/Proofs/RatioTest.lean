import Mathlib
import SoftSimplex.LeastRatio

/-!
# The least ratio over the rational numbers

There is no infinity among the rational numbers, so the test finds a least ratio whenever there is
a candidate at all, and of equal ratios the first.
-/

namespace SoftSimplex.LeastRatio
set_option autoImplicit false

variable {β : Type}

section Choice

variable {α : Type} [Scalar α]

theorem choice_foldl_offer (candidates : List (β × α)) (best : Best α β) {c : β}
    (h : (candidates.foldl offer best).choice = some c) :
    best.choice = some c ∨ ∃ q, (c, q) ∈ candidates := by
  induction candidates generalizing best with
  | nil => exact .inl h
  | cons d rest ih =>
    rcases ih _ h with hBest | ⟨q, hMem⟩
    · rw [offer] at hBest
      split at hBest
      · obtain rfl : d.1 = c := Option.some.inj hBest
        exact .inr ⟨d.2, List.mem_cons_self⟩
      · exact .inl hBest
    · exact .inr ⟨q, List.mem_cons_of_mem _ hMem⟩

/-- In any arithmetic the choice is one of the candidates. -/
theorem mem_of_choose {candidates : List (β × α)} {c : β} (h : choose candidates = some c) :
    ∃ q, (c, q) ∈ candidates := by
  rcases choice_foldl_offer candidates _ h with hNone | hMem
  · cases hNone
  · exact hMem

end Choice

theorem le_of_split {before after : List (β × Rat)} {c : β} {q : Rat}
    (hBefore : ∀ d ∈ before, q < d.2) (hAfter : ∀ d ∈ after, q ≤ d.2) :
    ∀ d ∈ before ++ (c, q) :: after, q ≤ d.2 := by
  intro d hd
  rcases List.mem_append.mp hd with hd | hd
  · exact (hBefore d hd).le
  · rcases List.mem_cons.mp hd with rfl | hd
    · exact le_rfl
    · exact hAfter d hd

/-- The scan ends with the first of the least ratios. -/
theorem exists_foldl_offer (candidates : List (β × Rat)) (b : β) (r : Rat) :
    ∃ before c q after, (b, r) :: candidates = before ++ (c, q) :: after ∧
      candidates.foldl offer ⟨some r, some b⟩ = ⟨some q, some c⟩ ∧
      (∀ d ∈ before, q < d.2) ∧ ∀ d ∈ after, q ≤ d.2 := by
  induction candidates generalizing b r with
  | nil => exact ⟨[], b, r, [], rfl, rfl, by simp, by simp⟩
  | cons d rest ih =>
    rw [List.foldl_cons, offer]
    split
    · rename_i hImproves
      have hLess : d.2 < r := by simpa [improves] using hImproves
      obtain ⟨before, c, q, after, hSplit, hFold, hBefore, hAfter⟩ := ih d.1 d.2
      have hNext : q ≤ d.2 := le_of_split hBefore hAfter d (hSplit ▸ List.mem_cons_self)
      refine ⟨(b, r) :: before, c, q, after, congrArg ((b, r) :: ·) hSplit, hFold, ?_, hAfter⟩
      exact List.forall_mem_cons.mpr ⟨hNext.trans_lt hLess, hBefore⟩
    · rename_i hImproves
      have hLess : r ≤ d.2 := by simpa [improves] using hImproves
      obtain ⟨before, c, q, after, hSplit, hFold, hBefore, hAfter⟩ := ih b r
      cases before with
      | nil =>
        cases hSplit
        exact ⟨[], b, r, d :: rest, rfl, hFold, by simp, List.forall_mem_cons.mpr ⟨hLess, hAfter⟩⟩
      | cons first before =>
        cases hSplit
        obtain ⟨hFirst, hBefore⟩ := List.forall_mem_cons.mp hBefore
        exact ⟨(b, r) :: d :: before, c, q, after, rfl, hFold, List.forall_mem_cons.mpr
          ⟨hFirst, List.forall_mem_cons.mpr ⟨lt_of_lt_of_le hFirst hLess, hBefore⟩⟩, hAfter⟩

theorem exists_choose_split {candidates : List (β × Rat)} (h : candidates ≠ []) :
    ∃ before c q after, choose candidates = some c ∧ candidates = before ++ (c, q) :: after ∧
      (∀ d ∈ before, q < d.2) ∧ ∀ d ∈ after, q ≤ d.2 := by
  cases candidates with
  | nil => exact absurd rfl h
  | cons d rest =>
    obtain ⟨before, c, q, after, hSplit, hFold, hBefore, hAfter⟩ := exists_foldl_offer rest d.1 d.2
    exact ⟨before, c, q, after, congrArg Best.choice hFold, hSplit, hBefore, hAfter⟩

/-- The choice has a least ratio, and every candidate before it has a greater one. -/
theorem split_of_choose {candidates : List (β × Rat)} {c : β} (h : choose candidates = some c) :
    ∃ before q after, candidates = before ++ (c, q) :: after ∧
      (∀ d ∈ before, q < d.2) ∧ ∀ d ∈ after, q ≤ d.2 := by
  have hSome : candidates ≠ [] := by
    rintro rfl
    cases h
  obtain ⟨before, b, q, after, hChoose, hSplit⟩ := exists_choose_split hSome
  obtain rfl : b = c := Option.some.inj (hChoose.symm.trans h)
  exact ⟨before, q, after, hSplit⟩

theorem least_of_choose {candidates : List (β × Rat)} {c : β} (h : choose candidates = some c) :
    ∃ q, (c, q) ∈ candidates ∧ ∀ d ∈ candidates, q ≤ d.2 := by
  obtain ⟨before, q, after, rfl, hBefore, hAfter⟩ := split_of_choose h
  exact ⟨q, List.mem_append_right _ List.mem_cons_self, le_of_split hBefore hAfter⟩

theorem exists_choose {candidates : List (β × Rat)} (h : candidates ≠ []) :
    ∃ c q, choose candidates = some c ∧ (c, q) ∈ candidates ∧ ∀ d ∈ candidates, q ≤ d.2 := by
  obtain ⟨_, c, _, _, hChoose, _⟩ := exists_choose_split h
  obtain ⟨q, hMem, hLeast⟩ := least_of_choose hChoose
  exact ⟨c, q, hChoose, hMem, hLeast⟩

theorem eq_nil_of_choose {candidates : List (β × Rat)} (h : choose candidates = none) :
    candidates = [] := by
  by_contra hSome
  obtain ⟨c, q, hChoose, _⟩ := exists_choose hSome
  cases hChoose.symm.trans h

end SoftSimplex.LeastRatio
