import Mathlib
import SoftSimplex.Satisfaction

/-!
# What the columns of a constraint say

With columns at least zero, and dummies at zero, the equation of a constraint says that the
constraint holds if it is required, and that it is violated by at most the sum of its errors if not.
Conversely every value that a constraint may take comes with columns whose errors are exactly the
violation.
-/

namespace SoftSimplex
set_option autoImplicit false

namespace Relation

theorem excess_nonneg (x : Rat) : 0 ≤ excess x := by
  rw [excess]
  split
  · rename_i h
    exact h.le
  · exact le_rfl

theorem excess_le {x y : Rat} (hxy : x ≤ y) (hy : 0 ≤ y) : excess x ≤ y := by
  rw [excess]
  split
  · exact hxy
  · exact hy

theorem excess_sub_excess_neg (x : Rat) : excess x - excess (-x) = x := by
  simp only [excess]
  split <;> split <;> linarith

end Relation

namespace Strength

theorem clip_nonneg (w : Strength Rat) : 0 ≤ w.clip.value := by
  rw [clip]
  dsimp only [Scalar.clamp]
  split
  · exact le_rfl
  · split
    · show (0 : Rat) ≤ ((1001001000 : Nat) : Rat)
      norm_num
    · rename_i hAbove _
      exact not_lt.mp hAbove

theorem isRequired_clip {w : Strength Rat} (h : w.isRequired = false) :
    w.clip.isRequired = false := by
  have hBelow : ¬ (required : Strength Rat).value ≤ w.value := by
    simpa [isRequired] using h
  have hPositive : (0 : Rat) < (required : Strength Rat).value := by
    show (0 : Rat) < ((1001001000 : Nat) : Rat)
    norm_num
  have hClip : w.clip.value < (required : Strength Rat).value := by
    rw [clip]
    dsimp only [Scalar.clamp]
    split
    · exact hPositive
    · split
      · rename_i hAbove
        exact absurd hAbove.le hBelow
      · exact not_le.mp hBelow
  simpa [isRequired] using hClip

end Strength

theorem Constraint.strength_nonneg (c : Constraint Rat) : 0 ≤ c.strength.value := by
  obtain ⟨_, w, _, hStrength⟩ := c.normal
  rw [hStrength]
  exact w.clip_nonneg

namespace Tag

section Symbols

variable {α : Type} [Scalar α] {tag : Tag} {c : Constraint α} {last : Nat} {s : Symbol}

theorem marker_mem_symbols (tag : Tag) : tag.marker ∈ tag.symbols := List.mem_cons_self

theorem mem_symbols_of_mem_errors (h : s ∈ tag.errors) : s ∈ tag.symbols := (List.mem_filter.mp h).1

theorem mem_cells {e : Symbol × α} (h : e ∈ tag.cells c) : e.1 ∈ tag.symbols := by
  rw [cells] at h
  rcases List.mem_cons.mp h with rfl | h
  · exact marker_mem_symbols tag
  · obtain ⟨t, ht, rfl⟩ := List.mem_map.mp h
    exact List.mem_cons_of_mem _ ht

theorem symbols_ofConstraint (h : s ∈ (ofConstraint c last).symbols) :
    last < s.id ∧ s.id ≤ last + (ofConstraint c last).symbols.length ∧
      (s.kind = .slack ∨ s.kind = .error ∨ s.kind = .dummy) := by
  revert h
  cases hRelation : c.relation <;> cases hRequired : c.isRequired <;>
    simp only [ofConstraint, hRelation, hRequired, symbols, Option.toList_none, Option.toList_some,
      List.mem_cons, List.not_mem_nil, or_false, List.length_cons, List.length_nil]
  all_goals
    intro h
    rcases h with rfl | rfl <;> simp

theorem isExternal_ofConstraint (h : s ∈ (ofConstraint c last).symbols) : s.isExternal = false := by
  rcases (symbols_ofConstraint h).2.2 with hk | hk | hk <;> simp [Symbol.isExternal, hk]

theorem isInvalid_ofConstraint (h : s ∈ (ofConstraint c last).symbols) : s.isInvalid = false := by
  rcases (symbols_ofConstraint h).2.2 with hk | hk | hk <;> simp [Symbol.isInvalid, hk]

/-- A marker is a dummy for an equation that must hold only, and then it is the only column. -/
theorem ofConstraint_of_isDummy (h : (ofConstraint c last).marker.isDummy = true) :
    (ofConstraint c last).other = none ∧ (markerSign c : α) = 1 := by
  revert h
  cases hRelation : c.relation <;> cases hRequired : c.isRequired <;>
    simp [ofConstraint, markerSign, hRelation, hRequired, Symbol.isDummy]

theorem nodup_symbols_ofConstraint : ((ofConstraint c last).symbols.map Symbol.id).Nodup := by
  cases hRelation : c.relation <;> cases hRequired : c.isRequired <;>
    simp [ofConstraint, hRelation, hRequired, symbols]

end Symbols

/-- What the columns of a constraint add to its equation. -/
def balance (tag : Tag) (c : Constraint Rat) (a : Nat → Rat) : Rat :=
  ((tag.cells c).map fun e => e.2 * a e.1.id).sum

def errorSum (tag : Tag) (a : Nat → Rat) : Rat := (tag.errors.map fun s => a s.id).sum

/-- The tag has been made for the constraint, with whatever numbers. -/
def Marks (tag : Tag) (c : Constraint Rat) : Prop := ∃ last, tag = ofConstraint c last

variable {tag : Tag} {c : Constraint Rat} {last : Nat} {a b : Nat → Rat} {s : Symbol}

theorem balance_congr (h : ∀ s ∈ tag.symbols, a s.id = b s.id) : tag.balance c a = tag.balance c b :=
  congrArg List.sum (List.map_congr_left fun e he => by rw [h e.1 (mem_cells he)])

theorem errorSum_congr (h : ∀ s ∈ tag.errors, a s.id = b s.id) : tag.errorSum a = tag.errorSum b :=
  congrArg List.sum (List.map_congr_left h)

section Columns

theorem Marks.restricted (h : tag.Marks c) (hs : s ∈ tag.symbols) : s.isExternal = false := by
  obtain ⟨last, rfl⟩ := h
  exact isExternal_ofConstraint hs

theorem Marks.errors_of_required (h : tag.Marks c) (hRequired : c.isRequired = true) :
    tag.errors = [] := by
  obtain ⟨last, rfl⟩ := h
  cases hRelation : c.relation <;>
    simp [ofConstraint, hRelation, hRequired, errors, symbols, Symbol.isError]

theorem Marks.isDummy_marker_iff (h : tag.Marks c) :
    tag.marker.isDummy = true ↔ c.isRequired = true ∧ c.relation = .equal := by
  obtain ⟨last, rfl⟩ := h
  cases hRelation : c.relation <;> cases hRequired : c.isRequired <;>
    simp [ofConstraint, hRelation, hRequired, Symbol.isDummy]

theorem Marks.other_of_required (h : tag.Marks c) (hRequired : c.isRequired = true) :
    tag.other = none := by
  obtain ⟨last, rfl⟩ := h
  cases hRelation : c.relation <;> simp [ofConstraint, hRelation, hRequired]

theorem Marks.pivotable_of_not_required (h : tag.Marks c) (hRequired : c.isRequired = false) :
    ∃ s ∈ tag.other, tag.marker.isPivotable = true ∧ s.isPivotable = true := by
  obtain ⟨last, rfl⟩ := h
  cases hRelation : c.relation <;>
    simp [ofConstraint, hRelation, hRequired, Symbol.isPivotable]

theorem Marks.symbols_of_required (h : tag.Marks c) (hRequired : c.isRequired = true)
    (hs : s ∈ tag.symbols) : s = tag.marker := by
  simpa [symbols, h.other_of_required hRequired] using hs

/-- The only dummies are the markers of the equations that must hold. -/
theorem Marks.eq_marker_of_isDummy (h : tag.Marks c) (hs : s ∈ tag.symbols)
    (hDummy : s.isDummy = true) : s = tag.marker ∧ c.isRequired = true := by
  cases hRequired : c.isRequired with
  | true => exact ⟨h.symbols_of_required hRequired hs, rfl⟩
  | false =>
    have hPivotable : s.isPivotable = true := by
      obtain ⟨other, hOther, hMarkerKind, hOtherKind⟩ := h.pivotable_of_not_required hRequired
      rcases List.mem_cons.mp hs with rfl | hs
      · exact hMarkerKind
      · obtain rfl : s = other :=
          Option.some.inj ((Option.mem_toList.mp hs).symm.trans hOther)
        exact hOtherKind
    rw [Symbol.isDummy_of_isPivotable hPivotable] at hDummy
    cases hDummy

end Columns

section Values

variable {r : Rat}

theorem markerSign_ne_zero (c : Constraint Rat) : (markerSign c : Rat) ≠ 0 := by
  rw [markerSign]
  split
  · exact one_ne_zero
  · split <;> norm_num
  · norm_num

theorem Marks.balance_of_required (h : tag.Marks c) (hRequired : c.isRequired = true) :
    tag.balance c a = markerSign c * a tag.marker.id := by
  simp [balance, cells, h.other_of_required hRequired]

theorem Marks.balance_of_not_required (h : tag.Marks c) (hRequired : c.isRequired = false) :
    ∃ s ∈ tag.other, s.id ≠ tag.marker.id ∧
      (∀ a, tag.balance c a = markerSign c * (a tag.marker.id - a s.id)) ∧
        ∀ a, tag.errorSum a =
          (if c.relation = .equal then a tag.marker.id else 0) + a s.id := by
  obtain ⟨last, rfl⟩ := h
  refine ⟨⟨.error, last + 2⟩, ?_, ?_, fun a => ?_, fun a => ?_⟩
  · cases hRelation : c.relation <;> simp [ofConstraint, hRelation, hRequired]
  · cases hRelation : c.relation <;> simp [ofConstraint, hRelation, hRequired]
  · cases hRelation : c.relation <;> simp [balance, cells, ofConstraint, hRelation, hRequired] <;>
      ring
  · cases hRelation : c.relation <;>
      simp [errorSum, errors, symbols, ofConstraint, Symbol.isError, hRelation, hRequired]

theorem Marks.exists_marker (h : tag.Marks c) (r : Rat) (a : Nat → Rat) :
    ∃ x, r + tag.balance c (Function.update a tag.marker.id x) = 0 := by
  have hSign := markerSign_ne_zero c
  cases hRequired : c.isRequired with
  | true =>
    refine ⟨-r / markerSign c, ?_⟩
    rw [h.balance_of_required hRequired, Function.update_self, mul_div_cancel₀ _ hSign,
      add_neg_cancel]
  | false =>
    obtain ⟨s, _, hne, hBalance, _⟩ := h.balance_of_not_required hRequired
    refine ⟨a s.id + -r / markerSign c, ?_⟩
    rw [hBalance, Function.update_self, Function.update_of_ne hne, add_sub_cancel_left,
      mul_div_cancel₀ _ hSign, add_neg_cancel]

theorem Marks.holds (h : tag.Marks c) (hRequired : c.isRequired = true)
    (hEquation : r + tag.balance c a = 0) (hNonneg : ∀ s ∈ tag.symbols, 0 ≤ a s.id)
    (hDummy : ∀ s ∈ tag.symbols, s.isDummy = true → a s.id = 0) : c.relation.Holds r := by
  have hMarker := hNonneg _ tag.marker_mem_symbols
  have hKind := h.isDummy_marker_iff
  rw [h.balance_of_required hRequired] at hEquation
  cases hRelation : c.relation with
  | lessOrEqual =>
    simp only [markerSign, hRelation] at hEquation
    show r ≤ 0
    linarith
  | equal =>
    have hZero := hDummy _ tag.marker_mem_symbols (hKind.mpr ⟨hRequired, hRelation⟩)
    rw [hZero, mul_zero, add_zero] at hEquation
    exact hEquation
  | greaterOrEqual =>
    simp only [markerSign, hRelation] at hEquation
    show 0 ≤ r
    linarith

theorem Marks.violation_le (h : tag.Marks c) (hRequired : c.isRequired = false)
    (hEquation : r + tag.balance c a = 0) (hNonneg : ∀ s ∈ tag.symbols, 0 ≤ a s.id) :
    c.relation.violation r ≤ tag.errorSum a := by
  obtain ⟨s, hs, _, hBalance, hErrors⟩ := h.balance_of_not_required hRequired
  have hMarker := hNonneg _ tag.marker_mem_symbols
  have hOther := hNonneg s (List.mem_cons_of_mem _ (Option.mem_toList.mpr hs))
  rw [hBalance] at hEquation
  rw [hErrors]
  cases hRelation : c.relation with
  | lessOrEqual =>
    simp only [markerSign, hRelation, one_mul] at hEquation
    rw [if_neg (by decide), zero_add]
    exact Relation.excess_le (by linarith) hOther
  | equal =>
    simp only [markerSign, hRelation, hRequired, Bool.false_eq_true, if_false] at hEquation
    rw [if_pos rfl]
    exact add_le_add (Relation.excess_le (by linarith) hMarker)
      (Relation.excess_le (by linarith) hOther)
  | greaterOrEqual =>
    simp only [markerSign, hRelation] at hEquation
    rw [if_neg (by decide), zero_add]
    exact Relation.excess_le (by linarith) hOther

/-- The values of the marker and of the other column at which a constraint has its value at the
least errors. -/
def leastColumns (relation : Relation) (r : Rat) : Rat × Rat :=
  match relation with
  | .lessOrEqual => (Relation.excess (-r), Relation.excess r)
  | .equal => (Relation.excess r, Relation.excess (-r))
  | .greaterOrEqual => (Relation.excess r, Relation.excess (-r))

/-- An assignment that gives the columns of a constraint their least values. -/
def withLeastColumns (tag : Tag) (relation : Relation) (r : Rat) (a : Nat → Rat) : Nat → Rat :=
  tag.other.elim (Function.update a tag.marker.id (leastColumns relation r).1) fun s =>
    Function.update (Function.update a tag.marker.id (leastColumns relation r).1) s.id
      (leastColumns relation r).2

theorem leastColumns_nonneg (relation : Relation) (r : Rat) :
    0 ≤ (leastColumns relation r).1 ∧ 0 ≤ (leastColumns relation r).2 := by
  cases relation <;> exact ⟨Relation.excess_nonneg _, Relation.excess_nonneg _⟩

theorem withLeastColumns_of_ne {n : Nat} (h : ∀ s ∈ tag.symbols, s.id ≠ n) :
    tag.withLeastColumns c.relation r a n = a n := by
  have hMarker := (h _ tag.marker_mem_symbols).symm
  rw [withLeastColumns]
  cases hOther : tag.other with
  | none => exact Function.update_of_ne hMarker _ _
  | some s =>
    have hs : s ∈ tag.symbols := List.mem_cons_of_mem _ (Option.mem_toList.mpr hOther)
    exact (Function.update_of_ne (h s hs).symm _ _).trans (Function.update_of_ne hMarker _ _)

/-- The least columns of a constraint: its equation holds, they are admissible, and their errors are
the violation. -/
structure Least (tag : Tag) (c : Constraint Rat) (r : Rat) (a : Nat → Rat) : Prop where
  equation : r + tag.balance c a = 0
  nonneg : ∀ s ∈ tag.symbols, 0 ≤ a s.id
  dummy : ∀ s ∈ tag.symbols, s.isDummy = true → a s.id = 0
  errors : c.isRequired = false → tag.errorSum a = c.relation.violation r

theorem Least.congr (h : tag.Least c r a) (hSame : ∀ s ∈ tag.symbols, b s.id = a s.id) :
    tag.Least c r b where
  equation := by rw [balance_congr hSame, h.equation]
  nonneg s hs := (h.nonneg s hs).trans_eq (hSame s hs).symm
  dummy s hs hKind := (hSame s hs).trans (h.dummy s hs hKind)
  errors hRequired := by
    rw [errorSum_congr fun s hs => hSame s (mem_symbols_of_mem_errors hs), h.errors hRequired]

theorem balance_leastColumns (hHolds : c.relation.Holds r) :
    r + markerSign c * (leastColumns c.relation r).1 = 0 := by
  have hSplit := Relation.excess_sub_excess_neg r
  cases hRelation : c.relation with
  | lessOrEqual =>
    rw [hRelation] at hHolds
    have hZero : Relation.excess r = 0 := if_neg (not_lt.mpr hHolds)
    simp only [markerSign, leastColumns, hRelation]
    linarith
  | equal =>
    rw [hRelation] at hHolds
    obtain rfl : r = 0 := hHolds
    simp [leastColumns, Relation.excess]
  | greaterOrEqual =>
    rw [hRelation] at hHolds
    have hZero : Relation.excess (-r) = 0 := if_neg (not_lt.mpr (neg_nonpos.mpr hHolds))
    simp only [markerSign, leastColumns, hRelation]
    linarith

theorem Marks.least_of_required (h : tag.Marks c) (hRequired : c.isRequired = true)
    (hHolds : c.relation.Holds r) (a : Nat → Rat) :
    tag.Least c r (tag.withLeastColumns c.relation r a) := by
  have hMarker : tag.withLeastColumns c.relation r a tag.marker.id = (leastColumns c.relation r).1 := by
    rw [withLeastColumns, h.other_of_required hRequired]
    exact Function.update_self ..
  refine ⟨?_, fun s hs => ?_, fun s hs hDummy => ?_, fun hNot => ?_⟩
  · rw [h.balance_of_required hRequired, hMarker]
    exact balance_leastColumns hHolds
  · obtain rfl := h.symbols_of_required hRequired hs
    rw [hMarker]
    exact (leastColumns_nonneg _ _).1
  · obtain rfl := h.symbols_of_required hRequired hs
    have hRelation := (h.isDummy_marker_iff.mp hDummy).2
    rw [hRelation] at hHolds
    obtain rfl : r = 0 := hHolds
    rw [hMarker, hRelation]
    simp [leastColumns, Relation.excess]
  · rw [hRequired] at hNot
    cases hNot

theorem Marks.least_of_not_required (h : tag.Marks c) (hRequired : c.isRequired = false)
    (r : Rat) (a : Nat → Rat) : tag.Least c r (tag.withLeastColumns c.relation r a) := by
  obtain ⟨s, hs, hne, hBalance, hErrors⟩ := h.balance_of_not_required hRequired
  have hOther : tag.other = some s := hs
  have hMarker : tag.withLeastColumns c.relation r a tag.marker.id = (leastColumns c.relation r).1 := by
    rw [withLeastColumns, hOther]
    exact (Function.update_of_ne hne.symm _ _).trans (Function.update_self ..)
  have hSecond : tag.withLeastColumns c.relation r a s.id = (leastColumns c.relation r).2 := by
    rw [withLeastColumns, hOther]
    exact Function.update_self ..
  have hSplit := Relation.excess_sub_excess_neg r
  refine ⟨?_, fun t ht => ?_, fun t ht hKind => ?_, fun _ => ?_⟩
  · rw [hBalance, hMarker, hSecond]
    cases hRelation : c.relation <;>
      simp only [markerSign, leastColumns, hRelation, hRequired, Bool.false_eq_true, if_false] <;>
      linarith
  · rcases List.mem_cons.mp ht with rfl | ht
    · exact hMarker ▸ (leastColumns_nonneg _ _).1
    · obtain rfl : t = s := Option.some.inj ((Option.mem_toList.mp ht).symm.trans hOther)
      exact hSecond ▸ (leastColumns_nonneg _ _).2
  · have hOnlyRequired := (h.eq_marker_of_isDummy ht hKind).2
    rw [hRequired] at hOnlyRequired
    cases hOnlyRequired
  · rw [hErrors, hMarker, hSecond]
    cases hRelation : c.relation <;> simp [leastColumns, Relation.violation]

/-- Every value that a constraint may take comes with least columns. -/
theorem Marks.least (h : tag.Marks c) (hHolds : c.isRequired = true → c.relation.Holds r)
    (a : Nat → Rat) : tag.Least c r (tag.withLeastColumns c.relation r a) := by
  cases hRequired : c.isRequired with
  | true => exact h.least_of_required hRequired (hHolds hRequired) a
  | false => exact h.least_of_not_required hRequired r a

end Values

end Tag

end SoftSimplex
