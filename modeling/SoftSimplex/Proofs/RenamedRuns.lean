import SoftSimplex.Proofs.RenamedSolvers
import SoftSimplex.Proofs.SolverRuns

/-!
# Runs under other names

A run with other names for its variables and other numbers for its constraints gives the same answers,
renamed, and goes through the same tableaus. The new names need to be different only for what the run
uses: what is different on finitely many names extends to all of them, and a run answers with no name
that it has not been given, because it would have to answer with every unused name in its place.
-/

namespace SoftSimplex
set_option autoImplicit false

instance : Infinite Variable := .of_injective Variable.mk fun _ _ h => congrArg Variable.id h

section Extension

variable {κ : Type} [Infinite κ] {s : Finset κ}

theorem exists_perm_extending {f : κ → κ} (hf : Set.InjOn f s) :
    ∃ e : Equiv.Perm κ, ∀ x ∈ s, e x = f x := by
  have hLess : Cardinal.mk (s : Set κ) < Cardinal.mk κ :=
    (Cardinal.lt_aleph0_of_finite _).trans_le (Cardinal.aleph0_le_mk κ)
  obtain ⟨e, he⟩ := Cardinal.extend_function_of_lt ⟨_, hf.injective⟩ hLess ⟨Equiv.refl κ⟩
  exact ⟨e, fun x hx => he ⟨x, hx⟩⟩

/-- What stays the same whenever the members of a finite set do consists of members. -/
theorem mem_of_forall_map_eq [DecidableEq κ] {l : List κ}
    (h : ∀ e : Equiv.Perm κ, (∀ x ∈ s, e x = x) → l.map e = l) : ∀ x ∈ l, x ∈ s := by
  intro x hx
  by_contra hOut
  obtain ⟨y, hy⟩ := Infinite.exists_notMem_finset (s ∪ l.toFinset)
  rw [Finset.mem_union, List.mem_toFinset, not_or] at hy
  have hFixed : ∀ z ∈ s, Equiv.swap x y z = z := fun z hz =>
    Equiv.swap_apply_of_ne_of_ne (fun hzx => hOut (hzx ▸ hz)) (fun hzy => hy.1 (hzy ▸ hz))
  have hMoved : Equiv.swap x y x ∈ l.map (Equiv.swap x y) := List.mem_map_of_mem hx
  rw [h _ hFixed, Equiv.swap_apply_left] at hMoved
  exact hy.2 hMoved

end Extension

section Names

variable {α : Type} [Scalar α] {f f' : Variable → Variable} {g g' : Nat → Nat} {c : Constraint α}
  {op : Operation α}

namespace Constraint

def vars (c : Constraint α) : List Variable := c.expression.terms.map Term.var

theorem rename_congr (hf : ∀ v ∈ c.vars, f v = f' v) (hg : g c.id = g' c.id) :
    c.rename f g = c.rename f' g' := by
  have hTerms : c.expression.rename f = c.expression.rename f' := by
    refine congrArg (Expression.mk · c.expression.constant) (List.map_congr_left fun t ht => ?_)
    exact congrArg (Term.mk · t.coefficient) (hf t.var (List.mem_map_of_mem ht))
  rw [rename, rename]
  congr 2

theorem rename_same (c : Constraint α) : c.rename (fun v => v) (fun i => i) = c := by
  obtain ⟨e, _, hReduced, _⟩ := c.normal
  have hNodup : (c.expression.terms.map Term.var).Nodup := hReduced ▸ nodup_vars_reduced e
  have hExpression : (c.expression.rename fun v => v).reduced = c.expression := by
    rw [show c.expression.rename (fun v => v) = c.expression from
      congrArg (Expression.mk · c.expression.constant) (List.map_id _)]
    exact Expression.reduced_of_nodup hNodup
  obtain ⟨number, expression, relation, strength, normal⟩ := c
  rw [rename]
  congr 1

theorem vars_rename (ρ : Renaming) (c : Constraint α) :
    (c.rename ρ.var ρ.id).vars = c.vars.map ρ.var := by
  rw [vars, vars, expression_rename, Expression.rename, List.map_map, List.map_map]
  rfl

end Constraint

namespace Operation

def vars : Operation α → List Variable
  | .addConstraint c => c.vars
  | .addConstraints cs => cs.flatMap Constraint.vars
  | .addEditVariable v _ _ => [v]
  | .removeEditVariable v => [v]
  | .suggestValue v _ => [v]
  | .nameVariable v _ => [v]
  | _ => []

def numbers : Operation α → List Nat
  | .addConstraint c => [c.id]
  | .addConstraints cs => cs.map Constraint.id
  | .removeConstraint id => [id]
  | .addEditVariable _ _ id => [id]
  | _ => []

theorem rename_congr (hf : ∀ v ∈ op.vars, f v = f' v) (hg : ∀ i ∈ op.numbers, g i = g' i) :
    op.rename f g = op.rename f' g' := by
  cases op with
  | addConstraint c =>
    exact congrArg Operation.addConstraint (c.rename_congr hf (hg _ List.mem_cons_self))
  | addConstraints cs =>
    refine congrArg Operation.addConstraints (List.map_congr_left fun c hc => ?_)
    exact c.rename_congr (fun v hv => hf v (List.mem_flatMap.mpr ⟨c, hc, hv⟩))
      (hg _ (List.mem_map_of_mem hc))
  | removeConstraint id => exact congrArg Operation.removeConstraint (hg id List.mem_cons_self)
  | addEditVariable v w id =>
    exact congrArg₂ (Operation.addEditVariable · w) (hf v List.mem_cons_self) (hg id List.mem_cons_self)
  | removeEditVariable v => exact congrArg Operation.removeEditVariable (hf v List.mem_cons_self)
  | suggestValue v x => exact congrArg (Operation.suggestValue · x) (hf v List.mem_cons_self)
  | fetchChanges => rfl
  | nameVariable v name => exact congrArg (Operation.nameVariable · name) (hf v List.mem_cons_self)
  | reset => rfl

theorem rename_same (op : Operation α) : op.rename (fun v => v) (fun i => i) = op := by
  cases op with
  | addConstraint c => exact congrArg Operation.addConstraint c.rename_same
  | addConstraints cs =>
    exact congrArg Operation.addConstraints
      ((List.map_congr_left fun c _ => c.rename_same).trans (List.map_id cs))
  | _ => rfl

end Operation

end Names

namespace Solver

variable {α : Type} [Scalar α] {ops : List (Operation α)} {vars : Finset Variable} {ids : Finset Nat}
  {f : Variable → Variable} {g : Nat → Nat}

/-- The names and the numbers that a run is given. -/
structure Uses (ops : List (Operation α)) (vars : Finset Variable) (ids : Finset Nat) : Prop where
  vars : ∀ op ∈ ops, ∀ v ∈ op.vars, v ∈ vars
  numbers : ∀ op ∈ ops, ∀ i ∈ op.numbers, i ∈ ids

theorem reached_rename (ρ : Renaming) (limit : Nat) (ops : List (Operation α)) :
    reached limit (ops.map (Operation.rename ρ.var ρ.id)) = (reached limit ops : Solver α).rename ρ :=
  congrArg Prod.snd (run_rename ρ (withPivotLimit limit) ops)

namespace Uses

variable (h : Uses ops vars ids) {limit : Nat}
include h

theorem take (n : Nat) : Uses (ops.take n) vars ids :=
  ⟨fun op hop => h.vars op (List.mem_of_mem_take hop),
    fun op hop => h.numbers op (List.mem_of_mem_take hop)⟩

theorem map_congr {f' : Variable → Variable} {g' : Nat → Nat} (hf : ∀ v ∈ vars, f v = f' v)
    (hg : ∀ i ∈ ids, g i = g' i) :
    ops.map (Operation.rename f g) = ops.map (Operation.rename f' g') :=
  List.map_congr_left fun op hop => op.rename_congr (fun v hv => hf v (h.vars op hop v hv))
    fun i hi => hg i (h.numbers op hop i hi)

section Fixed

variable (ρ : Renaming) (hVars : ∀ v ∈ vars, ρ.var v = v) (hIds : ∀ i ∈ ids, ρ.id i = i)
include hVars hIds

theorem map_of_fixed : ops.map (Operation.rename ρ.var ρ.id) = ops :=
  (h.map_congr hVars hIds).trans ((List.map_congr_left fun op _ => op.rename_same).trans (List.map_id ops))

theorem replies_of_fixed (limit : Nat) :
    ((withPivotLimit limit : Solver α).run ops).1.map (Reply.rename ρ.var) =
      ((withPivotLimit limit : Solver α).run ops).1 := by
  have hRun := congrArg Prod.fst (run_rename ρ (withPivotLimit limit : Solver α) ops)
  rw [h.map_of_fixed ρ hVars hIds] at hRun
  exact hRun.symm

theorem reached_of_fixed (limit : Nat) :
    (reached limit ops : Solver α).rename ρ = reached limit ops := by
  rw [← reached_rename, h.map_of_fixed ρ hVars hIds]

end Fixed

theorem mem_of_reply : ∀ r ∈ ((withPivotLimit limit : Solver α).run ops).1, ∀ c ∈ r.changes,
    c.1 ∈ vars := by
  have hAll : ∀ v ∈ ((withPivotLimit limit : Solver α).run ops).1.flatMap
      fun r => r.changes.map Prod.fst, v ∈ vars := by
    refine mem_of_forall_map_eq fun e hFixed => ?_
    have hReplies := h.replies_of_fixed ⟨e, id, e.injective, Function.injective_id⟩ hFixed
      (fun _ _ => rfl) limit
    conv_rhs => rw [← hReplies]
    rw [List.map_flatMap, List.flatMap_map]
    refine List.flatMap_congr fun r _ => ?_
    rw [Reply.rename, List.map_map, List.map_map]
    rfl
  exact fun r hr c hc => hAll c.1 (List.mem_flatMap.mpr ⟨r, hr, List.mem_map_of_mem hc⟩)

theorem mem_of_constraint : ∀ c ∈ (reached limit ops : Solver α).constraintList, ∀ v ∈ c.vars,
    v ∈ vars := by
  have hAll : ∀ v ∈ (reached limit ops : Solver α).constraintList.flatMap Constraint.vars,
      v ∈ vars := by
    refine mem_of_forall_map_eq fun e hFixed => ?_
    have hReached := h.reached_of_fixed ⟨e, id, e.injective, Function.injective_id⟩ hFixed
      (fun _ _ => rfl) limit
    conv_rhs => rw [← hReached, constraintList_rename]
    rw [List.map_flatMap, List.flatMap_map]
    exact List.flatMap_congr fun c _ =>
      (c.vars_rename ⟨e, id, e.injective, Function.injective_id⟩).symm
  exact fun c hc v hv => hAll v (List.mem_flatMap.mpr ⟨c, hc, hv⟩)

theorem id_mem_of_constraint : ∀ c ∈ (reached limit ops : Solver α).constraintList, c.id ∈ ids := by
  have hAll : ∀ i ∈ (reached limit ops : Solver α).constraintList.map Constraint.id, i ∈ ids := by
    refine mem_of_forall_map_eq fun e hFixed => ?_
    have hReached := h.reached_of_fixed ⟨id, e, Function.injective_id, e.injective⟩
      (fun _ _ => rfl) hFixed limit
    conv_rhs => rw [← hReached, constraintList_rename]
    rw [List.map_map, List.map_map]
    rfl
  exact fun c hc => hAll c.id (List.mem_map_of_mem hc)

theorem mem_of_edit : ∀ v ∈ (reached limit ops : Solver α).editVariables, v ∈ vars := by
  refine mem_of_forall_map_eq fun e hFixed => ?_
  have hReached := h.reached_of_fixed ⟨e, id, e.injective, Function.injective_id⟩ hFixed
    (fun _ _ => rfl) limit
  conv_rhs => rw [← hReached, editVariables_rename]

end Uses

/-- What a run answers and where it goes does not depend on the names of the variables and the numbers of
the constraints: with others that are different from each other, the answers are the same, renamed, and
tableau, symbol counter and limit are the same after every number of operations. The lists keep their
order, and whatever can be asked about a variable or a number has the old answer under the new one. -/
theorem run_independent_of_names (limit : Nat) (hUses : Uses ops vars ids) (hf : Set.InjOn f vars)
    (hg : Set.InjOn g ids) :
    ((withPivotLimit limit : Solver α).run (ops.map (Operation.rename f g))).1 =
        ((withPivotLimit limit : Solver α).run ops).1.map (Reply.rename f) ∧
      ∀ n,
        let s : Solver α := reached limit (ops.take n)
        let renamed : Solver α := reached limit ((ops.map (Operation.rename f g)).take n)
        renamed.tableau = s.tableau ∧
        renamed.lastSymbol = s.lastSymbol ∧
        renamed.pivotLimit = s.pivotLimit ∧
        renamed.constraintList = s.constraintList.map (Constraint.rename f g) ∧
        renamed.editVariables = s.editVariables.map f ∧
        (∀ id ∈ ids, renamed.hasConstraint (g id) = s.hasConstraint id) ∧
        ∀ v ∈ vars, renamed.getValue (f v) = s.getValue v ∧
          renamed.hasEditVariable (f v) = s.hasEditVariable v ∧
          renamed.variableName? (f v) = s.variableName? v := by
  obtain ⟨e, he⟩ := exists_perm_extending hf
  obtain ⟨d, hd⟩ := exists_perm_extending hg
  let ρ : Renaming := ⟨e, d, e.injective, d.injective⟩
  have hOps : ops.map (Operation.rename f g) = ops.map (Operation.rename ρ.var ρ.id) :=
    hUses.map_congr (fun v hv => (he v hv).symm) fun i hi => (hd i hi).symm
  rw [hOps]
  refine ⟨?_, fun n => ?_⟩
  · rw [show (withPivotLimit limit : Solver α) = (withPivotLimit limit : Solver α).rename ρ from rfl,
      run_rename]
    refine List.map_congr_left fun r hr => ?_
    refine congrArg (Reply.mk r.result) (List.map_congr_left fun c hc => ?_)
    exact Prod.ext (he c.1 (hUses.mem_of_reply r hr c hc)) rfl
  · have hTake := hUses.take n
    have hReached := reached_rename ρ limit (ops.take n)
    rw [List.map_take] at hReached
    dsimp only
    rw [hReached]
    refine ⟨rfl, rfl, rfl, ?_, ?_, fun i hi => ?_, fun v hv => ?_⟩
    · rw [constraintList_rename]
      refine List.map_congr_left fun c hc => ?_
      exact c.rename_congr (fun v hv => he v (hTake.mem_of_constraint c hc v hv))
        (hd c.id (hTake.id_mem_of_constraint c hc))
    · rw [editVariables_rename]
      exact List.map_congr_left fun v hv => he v (hTake.mem_of_edit v hv)
    · rw [← hd i hi]
      exact hasConstraint_rename ρ _ i
    · rw [← he v hv]
      exact ⟨getValue_rename ρ _ v, hasEditVariable_rename ρ _ v, variableName?_rename ρ _ v⟩

/-- The two numbers change their names, and the constraints are numbered downwards. -/
theorem splitOfTen_independent_of_names :
    let ops : List (Operation Rat) := splitOfTen ++ [.fetchChanges]
    let renamed := ops.map (Operation.rename (fun v => ⟨3 - v.id⟩) fun i => 10 - i)
    (reached 10 renamed).tableau = (reached 10 ops).tableau ∧
      (reached 10 renamed).editVariables = [⟨2⟩] ∧
      (reached 10 renamed).getValue ⟨2⟩ = (reached 10 ops).getValue ⟨1⟩ := by
  intro ops renamed
  have hUses : Uses ops {⟨1⟩, ⟨2⟩} {1, 2, 3, 4} := ⟨by decide +kernel, by decide +kernel⟩
  have hVars : Set.InjOn (fun v : Variable => (⟨3 - v.id⟩ : Variable))
      ({⟨1⟩, ⟨2⟩} : Finset Variable) := by
    intro v hv w hw
    rcases Finset.mem_insert.mp hv with rfl | hv <;> rcases Finset.mem_insert.mp hw with rfl | hw <;>
      simp_all
  have hIds : Set.InjOn (fun i => 10 - i) ({1, 2, 3, 4} : Finset Nat) := by
    intro i hi j hj hSame
    simp only [Finset.coe_insert, Finset.coe_singleton, Set.mem_insert_iff, Set.mem_singleton_iff] at hi hj
    dsimp only at hSame
    omega
  obtain ⟨_, hStates⟩ := run_independent_of_names 10 hUses hVars hIds
  obtain ⟨hTableau, _, _, _, hEdits, _, hAnswers⟩ := hStates ops.length
  rw [List.take_length, List.take_of_length_le (by rw [List.length_map])] at hTableau hEdits hAnswers
  refine ⟨hTableau, hEdits.trans (by decide +kernel), ?_⟩
  exact (hAnswers ⟨1⟩ (Finset.mem_insert_self _ _)).1

end Solver

end SoftSimplex
