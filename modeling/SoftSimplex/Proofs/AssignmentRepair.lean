import Mathlib
import SoftSimplex.Evaluation

/-!
# Repairing an assignment

An assignment that misses linear inequalities by a little is near to one that meets them all, if there
is any: the distance is at most a factor times the miss, and the factor depends on the coefficients
only, not on the bounds. The proof eliminates one variable after the other. A value for the eliminated
variable is chosen between the bounds that the others leave it, as near to the old value as they allow.
-/

namespace SoftSimplex
set_option autoImplicit false

abbrev LinearForm : Type := (Variable → Rat) →ₗ[Rat] Rat

namespace LinearForm

variable {f g : LinearForm} {s : Finset Variable} {v : Variable} {x : Variable → Rat} {t : Rat}

def coefficient (f : LinearForm) (v : Variable) : Rat := f (Pi.single v 1)

/-- No variable outside of a finite set has a say. -/
def DependsOn (f : LinearForm) (s : Finset Variable) : Prop :=
  ∀ x, f x = ∑ v ∈ s, x v * f.coefficient v

theorem apply_update (f : LinearForm) (x : Variable → Rat) (v : Variable) (t : Rat) :
    f (Function.update x v t) = f x + (t - x v) * f.coefficient v := by
  have hMoved : Function.update x v t = x + (t - x v) • Pi.single v (1 : Rat) := by
    funext w
    by_cases hSame : w = v
    · subst hSame
      simp
    · simp [hSame]
  rw [hMoved, map_add, map_smul, smul_eq_mul, coefficient]

theorem DependsOn.zero : (0 : LinearForm).DependsOn s := fun x => by
  simp [coefficient]

theorem DependsOn.add (hf : f.DependsOn s) (hg : g.DependsOn s) : (f + g).DependsOn s := fun x => by
  rw [LinearMap.add_apply, hf x, hg x, ← Finset.sum_add_distrib]
  exact Finset.sum_congr rfl fun v _ => (mul_add _ _ _).symm

theorem DependsOn.smul (hf : f.DependsOn s) (k : Rat) : (k • f).DependsOn s := fun x => by
  rw [LinearMap.smul_apply, hf x, Finset.smul_sum]
  exact Finset.sum_congr rfl fun v _ => mul_left_comm _ _ _

theorem DependsOn.sub (hf : f.DependsOn s) (hg : g.DependsOn s) : (f - g).DependsOn s := by
  have hNeg := hg.smul (-1)
  rw [neg_one_smul] at hNeg
  rw [sub_eq_add_neg]
  exact hf.add hNeg

theorem DependsOn.proj (hv : v ∈ s) : DependsOn (LinearMap.proj v) s := fun x => by
  simp [coefficient, Pi.single_apply, hv]

/-- A variable whose coefficient is zero may be left out. -/
theorem DependsOn.of_insert (hf : f.DependsOn (insert v s)) (hZero : f.coefficient v = 0) :
    f.DependsOn s := fun x => by
  rw [hf x]
  exact Finset.sum_insert_of_eq_zero_if_notMem fun _ => by rw [hZero, mul_zero]

theorem DependsOn.abs_apply_le (hf : f.DependsOn s) {ε : Rat} (hx : ∀ v, |x v| ≤ ε) :
    |f x| ≤ (∑ v ∈ s, |f.coefficient v|) * ε := by
  rw [hf x, Finset.sum_mul]
  refine (Finset.abs_sum_le_sum_abs _ _).trans (Finset.sum_le_sum fun v _ => ?_)
  rw [abs_mul, mul_comm]
  exact mul_le_mul_of_nonneg_left (hx v) (abs_nonneg _)

def ofTerms (terms : List (Term Rat)) : LinearForm :=
  (terms.map fun t => t.coefficient • (LinearMap.proj t.var : LinearForm)).sum

theorem ofTerms_apply (terms : List (Term Rat)) (x : Variable → Rat) :
    ofTerms terms x = (terms.map (Term.value x)).sum := by
  rw [ofTerms]
  induction terms with
  | nil => rfl
  | cons t rest ih =>
    rw [List.map_cons, List.sum_cons, LinearMap.add_apply, ih, List.map_cons, List.sum_cons]
    rfl

theorem dependsOn_ofTerms {terms : List (Term Rat)} (h : ∀ t ∈ terms, t.var ∈ s) :
    (ofTerms terms).DependsOn s := by
  rw [ofTerms]
  induction terms with
  | nil => exact .zero
  | cons t rest ih =>
    rw [List.map_cons, List.sum_cons]
    exact ((DependsOn.proj (h t List.mem_cons_self)).smul _).add
      (ih fun u hu => h u (List.mem_cons_of_mem _ hu))

end LinearForm

/-- Bounds from below that lie under all bounds from above leave room for a value near to zero, if they
leave room for one on either side. -/
theorem exists_near_zero {ι : Type} (I J : Finset ι) (low up : ι → Rat) {ρ : Rat} (hρ : 0 ≤ ρ)
    (hBetween : ∀ j ∈ J, ∀ i ∈ I, low j ≤ up i) (hLow : ∀ j ∈ J, low j ≤ ρ)
    (hUp : ∀ i ∈ I, -ρ ≤ up i) :
    ∃ w, (∀ j ∈ J, low j ≤ w) ∧ (∀ i ∈ I, w ≤ up i) ∧ |w| ≤ ρ := by
  have hNonempty : (insert (-ρ) (J.image low)).Nonempty := Finset.insert_nonempty _ _
  refine ⟨(insert (-ρ) (J.image low)).max' hNonempty, fun j hj => ?_, fun i hi => ?_,
    abs_le.mpr ⟨?_, ?_⟩⟩
  · exact Finset.le_max' _ _ (Finset.mem_insert_of_mem (Finset.mem_image_of_mem low hj))
  · refine Finset.max'_le _ _ _ fun w hw => ?_
    rcases Finset.mem_insert.mp hw with rfl | hw
    · exact hUp i hi
    · obtain ⟨j, hj, rfl⟩ := Finset.mem_image.mp hw
      exact hBetween j hj i hi
  · exact Finset.le_max' _ _ (Finset.mem_insert_self _ _)
  · refine Finset.max'_le _ _ _ fun w hw => ?_
    rcases Finset.mem_insert.mp hw with rfl | hw
    · linarith
    · obtain ⟨j, hj, rfl⟩ := Finset.mem_image.mp hw
      exact hLow j hj

section Elimination

variable {ι M : Type} [AddCommGroup M] [Module Rat M] {c a b : ι → Rat} {δ : Rat}

/-- Eliminates a variable that has the coefficients `c`: what does not have it stays, and an item where
its coefficient is positive is added to one where it is negative, so that it cancels. -/
def eliminate (c : ι → Rat) (m : ι → M) : ι ⊕ ι × ι → M
  | .inl i => if c i = 0 then m i else 0
  | .inr (i, j) => if 0 < c i ∧ c j < 0 then (c i)⁻¹ • m i - (c j)⁻¹ • m j else 0

theorem apply_eliminate (c : ι → Rat) (f : ι → LinearForm) (k : ι ⊕ ι × ι) (x : Variable → Rat) :
    eliminate c f k x = eliminate c (fun i => f i x) k := by
  match k with
  | .inl i =>
    simp only [eliminate]
    split <;> rfl
  | .inr (i, j) =>
    simp only [eliminate]
    split <;> rfl

theorem dependsOn_eliminate {f : ι → LinearForm} {s : Finset Variable} {v : Variable}
    (hf : ∀ i, (f i).DependsOn (insert v s)) (k : ι ⊕ ι × ι) :
    (eliminate (fun i => (f i).coefficient v) f k).DependsOn s := by
  match k with
  | .inl i =>
    simp only [eliminate]
    split
    · rename_i hZero
      exact (hf i).of_insert hZero
    · exact .zero
  | .inr (i, j) =>
    simp only [eliminate]
    split
    · rename_i hSigns
      refine (((hf i).smul _).sub ((hf j).smul _)).of_insert ?_
      show (((f i).coefficient v)⁻¹ • f i - ((f j).coefficient v)⁻¹ • f j) (Pi.single v 1) = 0
      rw [LinearMap.sub_apply, LinearMap.smul_apply, LinearMap.smul_apply, smul_eq_mul, smul_eq_mul]
      show ((f i).coefficient v)⁻¹ * (f i).coefficient v -
        ((f j).coefficient v)⁻¹ * (f j).coefficient v = 0
      rw [inv_mul_cancel₀ hSigns.1.ne', inv_mul_cancel₀ hSigns.2.ne, sub_self]
    · exact .zero

variable [Fintype ι]

/-- How far one unit of a miss can move the eliminated variable. -/
def stretch (c : ι → Rat) : Rat := ∑ i, |(c i)⁻¹|

theorem stretch_nonneg (c : ι → Rat) : 0 ≤ stretch c := Finset.sum_nonneg fun _ _ => abs_nonneg _

theorem abs_inv_le_stretch (c : ι → Rat) (i : ι) : |(c i)⁻¹| ≤ stretch c :=
  Finset.single_le_sum (f := fun i => |(c i)⁻¹|) (fun _ _ => abs_nonneg _) (Finset.mem_univ i)

/-- The eliminated inequalities are missed by a factor of the miss. -/
theorem eliminate_le (hδ : 0 ≤ δ) (h : ∀ i, a i ≤ b i + δ) (k : ι ⊕ ι × ι) :
    eliminate c a k ≤ eliminate c b k + (1 + 2 * stretch c) * δ := by
  have hStretch := mul_nonneg (stretch_nonneg c) hδ
  match k with
  | .inl i =>
    simp only [eliminate]
    split
    · have := h i
      linarith
    · linarith
  | .inr (i, j) =>
    simp only [eliminate, smul_eq_mul]
    split
    · rename_i hSigns
      have hFirst := mul_le_mul_of_nonneg_left (h i) (inv_nonneg.mpr hSigns.1.le)
      have hSecond := mul_le_mul_of_nonpos_left (h j) (inv_nonpos.mpr hSigns.2.le)
      have hUp := mul_le_mul_of_nonneg_right ((le_abs_self _).trans (abs_inv_le_stretch c i)) hδ
      have hDown := mul_le_mul_of_nonneg_right ((neg_le_abs _).trans (abs_inv_le_stretch c j)) hδ
      linarith
    · linarith

/-- Where the eliminated inequalities hold, moving the variable by no more than a factor of the miss
makes all of them hold. -/
theorem exists_move (hδ : 0 ≤ δ) (hMiss : ∀ i, a i ≤ b i + δ)
    (h : ∀ k, eliminate c a k ≤ eliminate c b k) :
    ∃ w, (∀ i, a i + w * c i ≤ b i) ∧ |w| ≤ stretch c * δ := by
  have hNear : ∀ i, |(c i)⁻¹| * δ ≤ stretch c * δ := fun i =>
    mul_le_mul_of_nonneg_right (abs_inv_le_stretch c i) hδ
  obtain ⟨w, hLow, hUp, hBound⟩ := exists_near_zero (Finset.univ.filter fun i => 0 < c i)
    (Finset.univ.filter fun j => c j < 0) (fun j => (c j)⁻¹ * (b j - a j))
    (fun i => (c i)⁻¹ * (b i - a i)) (mul_nonneg (stretch_nonneg c) hδ)
    (fun j hj i hi => by
      have hi := (Finset.mem_filter.mp hi).2
      have hj := (Finset.mem_filter.mp hj).2
      have hPair := h (.inr (i, j))
      simp only [eliminate, smul_eq_mul, hi, hj, and_self, if_true] at hPair
      linarith)
    (fun j hj => by
      have hj := inv_nonpos.mpr (Finset.mem_filter.mp hj).2.le
      have hMove := mul_le_mul_of_nonpos_left (hMiss j) hj
      have hFactor := hNear j
      rw [abs_of_nonpos hj] at hFactor
      linarith)
    (fun i hi => by
      have hi := inv_nonneg.mpr (Finset.mem_filter.mp hi).2.le
      have hMove := mul_le_mul_of_nonneg_left (hMiss i) hi
      have hFactor := hNear i
      rw [abs_of_nonneg hi] at hFactor
      linarith)
  refine ⟨w, fun i => ?_, hBound⟩
  rcases lt_trichotomy (c i) 0 with hNegative | hZero | hPositive
  · have hBelow := hLow i (Finset.mem_filter.mpr ⟨Finset.mem_univ i, hNegative⟩)
    have hScaled := mul_le_mul_of_nonpos_right hBelow hNegative.le
    rw [mul_right_comm, inv_mul_cancel₀ hNegative.ne, one_mul] at hScaled
    linarith
  · have hKept := h (.inl i)
    simp only [eliminate, hZero, if_true] at hKept
    rw [hZero, mul_zero, add_zero]
    exact hKept
  · have hAbove := hUp i (Finset.mem_filter.mpr ⟨Finset.mem_univ i, hPositive⟩)
    have hScaled := mul_le_mul_of_nonneg_right hAbove hPositive.le
    rw [mul_right_comm, inv_mul_cancel₀ hPositive.ne', one_mul] at hScaled
    linarith

end Elimination

/-- A factor that serves for all bounds. -/
def Repairs {ι : Type} (f : ι → LinearForm) (K : Rat) : Prop :=
  ∀ (b : ι → Rat) (z : Variable → Rat), (∀ i, f i z ≤ b i) →
    ∀ (y : Variable → Rat) (δ : Rat), 0 ≤ δ → (∀ i, f i y ≤ b i + δ) →
      ∃ x, (∀ i, f i x ≤ b i) ∧ ∀ v, |x v - y v| ≤ K * δ

section Factor

variable {ι : Type} [Fintype ι] {f : ι → LinearForm} {s : Finset Variable} {v : Variable} {K : Rat}

/-- The coefficients of a family, added up without their signs. -/
def mass (s : Finset Variable) (f : ι → LinearForm) : Rat := ∑ i, ∑ u ∈ s, |(f i).coefficient u|

theorem mass_nonneg (s : Finset Variable) (f : ι → LinearForm) : 0 ≤ mass s f :=
  Finset.sum_nonneg fun _ _ => Finset.sum_nonneg fun _ _ => abs_nonneg _

theorem LinearForm.DependsOn.abs_apply_le_mass {i : ι} (h : (f i).DependsOn s) {x : Variable → Rat}
    {ε : Rat} (hε : 0 ≤ ε) (hx : ∀ v, |x v| ≤ ε) : |f i x| ≤ mass s f * ε := by
  have hOne : ∑ u ∈ s, |(f i).coefficient u| ≤ mass s f :=
    Finset.single_le_sum (f := fun i => ∑ u ∈ s, |(f i).coefficient u|)
      (fun _ _ => Finset.sum_nonneg fun _ _ => abs_nonneg _) (Finset.mem_univ i)
  exact (h.abs_apply_le hx).trans (mul_le_mul_of_nonneg_right hOne hε)

/-- The factor of a family, from the factor `K` of what is left when a variable is eliminated. -/
def widen (s : Finset Variable) (v : Variable) (f : ι → LinearForm) (K : Rat) : Rat :=
  let R := stretch fun i => (f i).coefficient v
  R * (1 + mass s f * (K * (1 + 2 * R))) + K * (1 + 2 * R)

theorem widen_nonneg (s : Finset Variable) (v : Variable) (f : ι → LinearForm) (hK : 0 ≤ K) :
    0 ≤ widen s v f K := by
  have hR : 0 ≤ stretch fun i => (f i).coefficient v := stretch_nonneg _
  have hMass := mass_nonneg s f
  rw [widen]
  positivity

/-- What repairs the family without a variable repairs the family: first the others move, then the
variable. -/
theorem Repairs.widen (hf : ∀ i, (f i).DependsOn (insert v s)) (hK : 0 ≤ K)
    (hRepairs : Repairs (eliminate (fun i => (f i).coefficient v) f) K) :
    Repairs f (widen (insert v s) v f K) := by
  intro b z hz y δ hδ hMiss
  rw [SoftSimplex.widen]
  set R := stretch fun i => (f i).coefficient v
  set N := mass (insert v s) f
  have hR : 0 ≤ R := stretch_nonneg _
  have hN : 0 ≤ N := mass_nonneg _ _
  obtain ⟨x, hx, hNear⟩ := hRepairs (eliminate (fun i => (f i).coefficient v) b) z
    (fun k => by
      rw [apply_eliminate]
      simpa using eliminate_le le_rfl (fun i => (hz i).trans_eq (add_zero _).symm) k)
    y ((1 + 2 * R) * δ) (by positivity)
    (fun k => by
      rw [apply_eliminate]
      exact eliminate_le hδ hMiss k)
  rw [← mul_assoc] at hNear
  have hMissed : ∀ i, f i x ≤ b i + (1 + N * (K * (1 + 2 * R))) * δ := by
    intro i
    have hClose : |f i (x - y)| ≤ N * (K * (1 + 2 * R) * δ) :=
      (hf i).abs_apply_le_mass (by positivity) hNear
    have hApart := (le_abs_self _).trans hClose
    rw [map_sub] at hApart
    have := hMiss i
    linarith
  obtain ⟨w, hHolds, hSmall⟩ := exists_move (c := fun i => (f i).coefficient v)
    (show 0 ≤ (1 + N * (K * (1 + 2 * R))) * δ by positivity) hMissed
    (fun k => by
      rw [← apply_eliminate]
      exact hx k)
  refine ⟨Function.update x v (x v + w), fun i => ?_, fun u => ?_⟩
  · rw [LinearForm.apply_update, add_sub_cancel_left]
    exact hHolds i
  · by_cases hSame : u = v
    · subst hSame
      rw [Function.update_self]
      have hOld := hNear u
      have hTotal := abs_add_le w (x u - y u)
      rw [show w + (x u - y u) = x u + w - y u by ring] at hTotal
      linarith
    · rw [Function.update_of_ne hSame]
      have hMore : 0 ≤ R * (1 + N * (K * (1 + 2 * R))) * δ := by positivity
      have hOld := hNear u
      linarith

end Factor

/-- The factor of a family, by eliminating the variables of a list one after the other. -/
def repairFactor : List Variable → {ι : Type} → [Fintype ι] → (ι → LinearForm) → Rat
  | [], _, _, _ => 0
  | v :: rest, _, _, f => widen (v :: rest).toFinset v f
      (repairFactor rest (eliminate (fun i => (f i).coefficient v) f))

theorem repairFactor_nonneg (vars : List Variable) :
    ∀ {ι : Type} [Fintype ι] (f : ι → LinearForm), 0 ≤ repairFactor vars f := by
  induction vars with
  | nil => exact fun _ => le_rfl
  | cons v rest ih => exact fun f => widen_nonneg _ v f (ih _)

/-- The induction is on the variables that have a say; the family of inequalities changes with each. -/
theorem repairs_repairFactor (vars : List Variable) : ∀ {ι : Type} [Fintype ι] (f : ι → LinearForm),
    (∀ i, (f i).DependsOn vars.toFinset) → Repairs f (repairFactor vars f) := by
  induction vars with
  | nil =>
    intro ι _ f hf b z hz y δ _ _
    refine ⟨y, fun i => ?_, fun v => by simp [repairFactor]⟩
    have hHolds := hz i
    rw [hf i z, List.toFinset_nil, Finset.sum_empty] at hHolds
    rw [hf i y, List.toFinset_nil, Finset.sum_empty]
    exact hHolds
  | cons v rest ih =>
    intro ι _ f hf
    rw [List.toFinset_cons] at hf
    rw [repairFactor, List.toFinset_cons]
    exact (ih _ (dependsOn_eliminate hf)).widen hf (repairFactor_nonneg rest _)

end SoftSimplex
