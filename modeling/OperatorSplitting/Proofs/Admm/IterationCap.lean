import Mathlib
import OperatorSplitting.Proofs.Admm.Lifecycle

/-!
# The cap on the iterations

The settings cap the iterations of a run.  Solving looks at the cap before its first step, and never
takes a run beyond it (`iteration_le_of_solve`).  A step looks at the cap only afterwards, to see
whether the run goes on, so that a run of no iterations still takes its first step.  This is the only
way beyond the cap: a reachable solver is within the cap or, if the cap is zero, has made one iteration
(`reachable_iteration_cap`).

Nothing is asked of the problem: its operators, functionals and external strategy may do anything.
-/

namespace OperatorSplitting

namespace Solver

variable {K R W : Type} [Scalar K R W] [RealArithmetic R] [RealArithmetic W] [Widening R W]
  {s s' : Solver K R W} {t t' : Trace K W}

/-- What a step does to the iteration number, the state and the history.  It fails and leaves the number
and the history alone, or it is the next iteration, which goes on only below the cap and is recorded if
the run ends with it. -/
theorem step_advance {result : Except Error Unit} (h : s.step t = ((result, s'), t')) :
    s'.config = s.config ∧
      ((∃ e, result = .error e ∧ s'.iteration = s.iteration ∧ s'.history = s.history ∧
          (s'.state.isTerminal = false → s.state.isTerminal = false)) ∨
        result = .ok () ∧ s.state.isTerminal = false ∧ s'.iteration = s.iteration + 1 ∧
          (s'.state.isTerminal = false → s'.iteration < s.config.maxIter) ∧
          (∀ row ∈ s'.history.newest, row ∈ s.history.newest ∨ row.iteration = s'.iteration) ∧
          (s'.state.isTerminal = true → ∃ row ∈ s'.history.newest, row.iteration = s'.iteration)) := by
  unfold step at h
  by_cases hterminal : s.state.isTerminal = true
  · rw [if_pos hterminal] at h
    cases h
    exact ⟨rfl, .inl ⟨_, rfl, rfl, rfl, id⟩⟩
  · rw [if_neg hterminal] at h
    rw [Bool.not_eq_true] at hterminal
    rcases hrun : (attempt s).run ⟨s.strategy, s.timing, t⟩ with ⟨r, c⟩
    rw [hrun] at h
    cases r with
    | error e =>
      cases h
      exact ⟨rfl, .inl ⟨e, rfl, rfl, rfl, fun _ => hterminal⟩⟩
    | ok r =>
      cases h
      refine ⟨rfl, .inr ⟨rfl, hterminal, rfl, lt_maxIter_of_nextState, fun row hrow => ?_,
        fun hend => ?_⟩⟩
      · have hrow' := mem_history_commit hrow
        exact hrow'.imp_right (congrArg IterationStats.iteration)
      · refine ⟨statistics (s.iteration + 1) r, ?_, rfl⟩
        have hnext : (nextState s.config (s.iteration + 1) r.diagnostics).isTerminal = true := hend
        unfold commit
        simp only [hnext, Bool.or_true, if_true]
        exact List.mem_cons_self

/-! ### Solving -/

theorem iteration_le_of_solveWithin {n : ℕ} {result : Except Error (Signal K)}
    (h : solveWithin n s t = ((result, s'), t')) : s'.iteration ≤ s.iteration + n := by
  induction n generalizing s t with
  | zero =>
    cases h
    exact le_rfl
  | succ n ih =>
    unfold solveWithin at h
    by_cases hterminal : s.state.isTerminal = true
    · rw [if_pos hterminal] at h
      cases h
      exact Nat.le_add_right _ _
    · rw [if_neg hterminal] at h
      rcases hrun : s.step t with ⟨⟨r, s₁⟩, t₁⟩
      simp only [bind, StateT.bind, hrun] at h
      have hle : s₁.iteration ≤ s.iteration + 1 := by
        rcases (step_advance hrun).2 with ⟨e, -, hsame, -⟩ | ⟨-, -, hnext, -⟩
        · exact hsame.le.trans (Nat.le_succ _)
        · exact hnext.le
      cases r with
      | error e =>
        cases h
        omega
      | ok u =>
        have hrest := ih h
        omega

/-- Solving does not take a run beyond the cap. -/
theorem iteration_le_of_solve {result : Except Error (Signal K)}
    (h : s.solve t = ((result, s'), t')) : s'.iteration ≤ max s.iteration s.config.maxIter := by
  unfold solve at h
  have hbound := iteration_le_of_solveWithin h
  have hsame : (if s.config.maxIter ≤ s.iteration && !s.state.isTerminal then
      { s with state := .maxIterReached } else s : Solver K R W).iteration = s.iteration := by
    split <;> rfl
  have hconfig : (if s.config.maxIter ≤ s.iteration && !s.state.isTerminal then
      { s with state := .maxIterReached } else s : Solver K R W).config = s.config := by
    split <;> rfl
  rw [hsame, hconfig] at hbound
  omega

/-! ### Reachable solvers -/

/-- What the cap means for a reachable solver.  A run that goes on has made fewer iterations than the
cap, or none. -/
structure Capped (config : Config W) (s : Solver K R W) : Prop where
  config_eq : s.config = config
  iteration_le : s.iteration ≤ max config.maxIter 1
  iteration_lt : s.state.isTerminal = false → s.iteration < max config.maxIter 1
  history : ∀ row ∈ s.history.newest, row.iteration ≤ s.iteration

variable {p : Problem K R W} {config : Config W} {strategy : Strategy K R W}

omit [Widening R W] in
theorem capped_create (h : (create p config strategy).run t = (.ok s, t')) : s.Capped config := by
  obtain ⟨-, -, -, -, -, -, -, rfl⟩ := run_create_eq_ok_iff.mp h
  exact ⟨rfl, Nat.zero_le _, fun _ => lt_max_of_lt_right Nat.one_pos, List.forall_mem_nil _⟩

theorem Capped.step {result : Except Error Unit} (hs : s.Capped config)
    (h : s.step t = ((result, s'), t')) : s'.Capped config := by
  obtain ⟨hconfig, hcases⟩ := step_advance h
  rcases hcases with ⟨e, -, hsame, hhistory, hstate⟩ | ⟨-, hgoing, hnext, hbelow, hrows, -⟩
  · refine ⟨hconfig.trans hs.config_eq, ?_, fun h => ?_, ?_⟩
    · rw [hsame]
      exact hs.iteration_le
    · rw [hsame]
      exact hs.iteration_lt (hstate h)
    · rw [hsame, hhistory]
      exact hs.history
  · refine ⟨hconfig.trans hs.config_eq, ?_, fun h => ?_, fun row hrow => ?_⟩
    · rw [hnext]
      exact hs.iteration_lt hgoing
    · rw [← hs.config_eq]
      exact lt_max_of_lt_left (hbelow h)
    · rcases hrows row hrow with hold | hnew
      · rw [hnext]
        exact (hs.history row hold).trans (Nat.le_succ _)
      · exact hnew.le

theorem Reachable.capped (h : s.Reachable p config strategy) : s.Capped config :=
  h.invariant capped_create (fun hs hstep => hs.step hstep) fun hs =>
    ⟨hs.config_eq, hs.iteration_le, fun h => Bool.noConfusion h, hs.history⟩

/-- If the cap is zero, a step that succeeds is the first iteration, and is recorded. -/
theorem Capped.first_step (hs : s.Capped config) (hzero : config.maxIter = 0)
    (h : s.step t = ((.ok (), s'), t')) :
    s'.iteration = 1 ∧ ∃ row ∈ s'.history.records, row.iteration = 1 := by
  have hs' := hs.step h
  have hmax : max config.maxIter 1 = 1 := by rw [hzero]; rfl
  rcases (step_advance h).2 with ⟨e, herror, -⟩ | ⟨-, hgoing, hnext, -, -, hrecorded⟩
  · cases herror
  · have hfirst := hs.iteration_lt hgoing
    have hone : s'.iteration = 1 := by omega
    have hend : s'.state.isTerminal = true := by
      by_contra hgoes
      have hlt := hs'.iteration_lt (Bool.not_eq_true _ ▸ hgoes)
      omega
    obtain ⟨row, hrow, hnumber⟩ := hrecorded hend
    exact ⟨hone, row, List.mem_reverse.mpr hrow, hnumber.trans hone⟩

/-- The cap in every reachable solver, whatever calls came before and whatever failed in them.

* The iteration number and all recorded numbers are at most the cap, or at most one if the cap is zero.
* If the cap is zero, a step that succeeds is the first iteration nevertheless, and is recorded.
* Solving stays within the cap, also when it is zero. -/
theorem reachable_iteration_cap (h : s.Reachable p config strategy) :
    (s.iteration ≤ max config.maxIter 1 ∧
      ∀ row ∈ s.history.records, row.iteration ≤ max config.maxIter 1) ∧
    (config.maxIter = 0 → ∀ s' t t', s.step t = ((.ok (), s'), t') →
      s'.iteration = 1 ∧ ∃ row ∈ s'.history.records, row.iteration = 1) ∧
    (∀ result s' t t', s.solve t = ((result, s'), t') → s.iteration ≤ config.maxIter →
      s'.iteration ≤ config.maxIter ∧
        ∀ row ∈ s'.history.records, row.iteration ≤ config.maxIter) := by
  have hs := h.capped
  refine ⟨⟨hs.iteration_le, fun row hrow => ?_⟩, fun hzero s' t t' hstep => ?_,
    fun result s' t t' hsolve hbelow => ?_⟩
  · exact (hs.history row (List.mem_reverse.mp hrow)).trans hs.iteration_le
  · exact hs.first_step hzero hstep
  · have hle := iteration_le_of_solve hsolve
    rw [hs.config_eq, max_eq_right hbelow] at hle
    have hs' := (h.solve hsolve).capped
    exact ⟨hle, fun row hrow => (hs'.history row (List.mem_reverse.mp hrow)).trans hle⟩

end Solver

/-! ### A run of no iterations -/

noncomputable section

namespace Solver

open Signal

/-- The squared norm plus the l1 norm, from the numbers one and two. -/
def shrinkingProblem : Problem ℝ ℝ ℝ where
  f := .squaredL2
  penalties := [.l1]
  operators := [.leaf (.identity (.vector 2))]
  weights := [1]
  start := pair 1 RealArithmetic.two

/-- No iteration is allowed. -/
def noIterations : Config ℝ := ⟨0, .default, none⟩

/-- The l1 norm, with the variables at the start. -/
def shrinkingTerm : Term ℝ ℝ ℝ where
  penalty := .l1
  operator := .leaf (.identity (.vector 2))
  weight := 1
  z := pair 1 RealArithmetic.two
  u := pair 0 0

/-- The solver that the problem makes. -/
def shrinkingSolver : Solver ℝ ℝ ℝ where
  f := .squaredL2
  terms := [shrinkingTerm]
  config := noIterations
  strategy := .descent 1 1
  x := pair 1 RealArithmetic.two
  iteration := 0
  state := .initialized
  history := .empty
  timing := Timing.empty.mark "setup"

theorem shrinkingSolver_x : shrinkingSolver.x = pair 1 2 := congrArg (pair 1) RealArithmetic.two_eq

theorem run_create_shrinking : ∃ t,
    (create shrinkingProblem noIterations (.ofSteps 1)).run .empty = (.ok shrinkingSolver, t) := by
  have hfault : shrinkingProblem.fault? = none := by
    simp [Problem.fault?, shrinkingProblem, Problem.operatorFault?, Problem.weightFault?,
      Problem.isPositive_iff, Functional.isSmooth, Functional.hasProx, LinearOperator.input,
      Leaf.input]
    rfl
  have hsolver : shrinkingSolver = { shrinkingSolver with
      terms := [{ shrinkingTerm with u := .zeros (.vector 2) }] } := by
    rw [zeros_vector_two]
    rfl
  unfold create
  rw [hfault, hsolver]
  exact ⟨_, rfl⟩

/-- The objective of its x-update. -/
theorem run_objective_shrinking (a b : ℝ) (t : Trace ℝ ℝ) :
    (shrinkingSolver.xUpdate.objective (pair a b)).run t =
      (.ok (a * a + b * b + ((a - 1) * (a - 1) + (b - 2) * (b - 2)) / 2), t) := by
  have hmismatch : (shrinkingTerm.coupling.mismatch (pair a b) : Eval ℝ ℝ _).run t =
      (.ok (pair (a - 1 + 0) (b - RealArithmetic.two + 0)), t) :=
    Coupling.run_mismatch_identity rfl (zipMap_pair _ _ _ _ _ _) (zipMap_pair _ _ _ _ _ _) t
  have hvalue : ((Functional.squaredL2 : Functional ℝ ℝ ℝ).value (pair a b)).run t =
      (.ok (a * a + b * b), t) := by
    rw [← normSqr_pair]
    rfl
  refine (XUpdate.run_objective_one hvalue hmismatch).trans ?_
  rw [normSqr_pair, RealArithmetic.two_eq]
  congr 2
  show a * a + b * b + 1 * _ / (1 + 1) = _
  ring

theorem run_gradient_shrinking (t : Trace ℝ ℝ) :
    (shrinkingSolver.xUpdate.gradient (pair 1 2)).run t = (.ok (pair 2 4), t) := by
  have hmismatch : (shrinkingTerm.coupling.mismatch (pair 1 2) : Eval ℝ ℝ _).run t =
      (.ok (pair (1 - 1 + 0) (2 - RealArithmetic.two + 0)), t) :=
    Coupling.run_mismatch_identity rfl (zipMap_pair _ _ _ _ _ _) (zipMap_pair _ _ _ _ _ _) t
  have hgrad : ((Functional.squaredL2 : Functional ℝ ℝ ℝ).grad (pair 1 2)).run t =
      (.ok (pair (1 * (1 + 1)) (2 * (1 + 1))), t) := by
    rw [← map_pair (· * (1 + 1 : ℝ))]
    rfl
  have hsum : (pair (1 * (1 + 1)) (2 * (1 + 1))).addScaled (Scalar.ofReal (1 : ℝ))
      (pair (1 - 1 + 0) (2 - RealArithmetic.two + 0)) = .ok (pair 2 4) := by
    rw [addScaled, zipMap_pair, RealArithmetic.two_eq]
    norm_num
  exact XUpdate.run_gradient_identity hgrad hmismatch rfl hsum

theorem addScaled_shrinking (size : ℝ) :
    (pair 1 2).addScaled (-(Scalar.ofReal size : ℝ)) (pair 2 4) =
      .ok (pair (1 + -size * 2) (2 + -size * 4)) := zipMap_pair _ _ _ _ _ _

/-- The line search rejects the step sizes one and one half, and accepts one quarter. -/
theorem solve_shrinking (t : Trace ℝ ℝ) :
    (Strategy.descent 1 1).solve shrinkingSolver.xUpdate (pair 1 2) t =
      ((.ok ⟨pair (1 / 2) 1, none⟩, .descent 1 (1 / 4 + 1 / 4)), t) := by
  have hnonzero : ¬RealArithmetic.beq ((pair 2 4).normSqr : ℝ) 0 = true := by
    rw [normSqr_pair]
    exact mt of_decide_eq_true (by norm_num)
  have hhalf : (1 : ℝ) * RealArithmetic.half = 1 / 2 := by rw [RealArithmetic.half_eq, one_mul]
  have hquarter : (1 / 2 : ℝ) * RealArithmetic.half = 1 / 4 := by
    rw [RealArithmetic.half_eq]
    norm_num
  have hsearch : (Descent.search shrinkingSolver.xUpdate (pair 1 2) (pair 2 4)
      (1 * 1 + 2 * 2 + ((1 - 1) * (1 - 1) + (2 - 2) * (2 - 2)) / 2) (pair 2 4).normSqr
      Descent.maxTries 1 : Eval ℝ ℝ _).run t = (.ok (some (pair (1 / 2) 1, 1 / 4)), t) := by
    rw [Descent.maxTries, Descent.run_search_succ (addScaled_shrinking 1)
      (run_objective_shrinking _ _ t), if_neg, hhalf,
      Descent.run_search_succ (addScaled_shrinking (1 / 2)) (run_objective_shrinking _ _ t), if_neg,
      hquarter, Descent.run_search_succ (addScaled_shrinking (1 / 4))
      (run_objective_shrinking _ _ t), if_pos]
    · norm_num
    · rw [normSqr_pair, RealArithmetic.half_eq]
      exact decide_eq_true (by norm_num)
    · rw [normSqr_pair, RealArithmetic.half_eq]
      exact mt of_decide_eq_true (by norm_num)
    · rw [normSqr_pair, RealArithmetic.half_eq]
      exact mt of_decide_eq_true (by norm_num)
  rw [Descent.solve_one, Descent.run_step_of_search (run_gradient_shrinking t) hnonzero
    (run_objective_shrinking 1 2 t) hsearch]

/-- The split variables are shrunk to zero. -/
theorem prox_shrinking : L1.prox (pair (1 / 2) 1) (1 / 1 : ℝ) = pair 0 0 := by
  have hshrink {v : ℝ} (hv : |v| ≤ 1) : shrink v (1 / 1 : ℝ) = 0 := by
    rw [one_div_one]
    exact if_pos (decide_eq_true hv)
  have hhalf : |(1 / 2 : ℝ)| ≤ 1 := by norm_num [abs_of_pos]
  rw [L1.prox, map_pair, hshrink hhalf, hshrink abs_one.le]

theorem step_shrinking (t : Trace ℝ ℝ) : ∃ s' t', shrinkingSolver.step t = ((.ok (), s'), t') ∧
    s'.x = pair (1 / 2) 1 ∧ s'.terms = [{ shrinkingTerm with z := pair 0 0, u := pair (1 / 2) 1 }] := by
  have hv : (pair (1 / 2) 1).add (pair 0 0) = .ok (pair (1 / 2) 1) := by
    rw [add, zipMap_pair, add_zero, add_zero]
  have hz : ((Functional.l1 : Functional ℝ ℝ ℝ).prox (pair (1 / 2) 1) (1 / 1)).run t =
      (.ok (pair 0 0), t) := by
    rw [← prox_shrinking]
    rfl
  have hgap : (pair (1 / 2) 1).sub (pair 0 0) = .ok (pair (1 / 2) 1) := by
    rw [sub, zipMap_pair, sub_zero, sub_zero]
  have hu : (pair 0 0).add (pair (1 / 2) 1) = .ok (pair (1 / 2) 1) := by
    rw [add, zipMap_pair, zero_add, zero_add]
  have hcouple : (Iterate.couple shrinkingSolver.f (shrinkingSolver.point t).terms
      ⟨pair (1 / 2) 1, none⟩).run t = _ :=
    Iterate.run_couple_identity (f := .squaredL2) (s := .vector 2) rfl hv hz hgap hu
      (zipMap_pair _ _ _ _ _ _) rfl rfl
  have hsolve : (shrinkingSolver.point t).strategy.solve shrinkingSolver.xUpdate
      (shrinkingSolver.point t).x t = _ := shrinkingSolver_x ▸ solve_shrinking t
  obtain ⟨r, strategy, timing, trace, hq, hstep⟩ := step_of_update rfl
    (Iterate.update_of_couple hsolve (allFinite_eq_true _) hcouple _)
  obtain ⟨hterms, hx, -⟩ := Iterate.mk.inj hq
  exact ⟨_, _, hstep, hx.symm, hterms.symm⟩

/-- The step shrinks the variables, although no iteration is allowed, and is the only one recorded. -/
theorem iteration_cap_shrinking : ∃ s' t t',
    (create shrinkingProblem noIterations (.ofSteps 1)).run .empty = (.ok shrinkingSolver, t) ∧
    shrinkingSolver.step t = ((.ok (), s'), t') ∧ s'.x = pair (1 / 2) 1 ∧
    s'.terms = [{ shrinkingTerm with z := pair 0 0, u := pair (1 / 2) 1 }] ∧ s'.iteration = 1 ∧
    (∃ row ∈ s'.history.records, row.iteration = 1) ∧
    ∀ row ∈ s'.history.records, row.iteration ≤ 1 := by
  obtain ⟨t, hcreate⟩ := run_create_shrinking
  obtain ⟨s', t', hstep, hx, hterms⟩ := step_shrinking t
  have hreached : shrinkingSolver.Reachable shrinkingProblem noIterations (.ofSteps 1) :=
    .create hcreate
  obtain ⟨-, hfirst, -⟩ := reachable_iteration_cap hreached
  obtain ⟨hone, hrow⟩ := hfirst rfl s' t t' hstep
  obtain ⟨⟨-, hrows⟩, -⟩ := reachable_iteration_cap (hreached.step hstep)
  exact ⟨s', t, t', hcreate, hstep, hx, hterms, hone, hrow, hrows⟩

/-- A run that allows no iteration makes one when it is stepped, and records it. -/
theorem exists_step_beyond_cap : ∃ s t,
    (create shrinkingProblem noIterations (.ofSteps 1)).run .empty = (.ok s, t) ∧
    ∃ s' t', s.step t = ((.ok (), s'), t') ∧ noIterations.maxIter < s'.iteration ∧
      ∃ row ∈ s'.history.records, noIterations.maxIter < row.iteration := by
  obtain ⟨t, hcreate⟩ := run_create_shrinking
  obtain ⟨s', t', hstep, -⟩ := step_shrinking t
  obtain ⟨hone, row, hrow, hnumber⟩ := (capped_create hcreate).first_step rfl hstep
  exact ⟨shrinkingSolver, t, hcreate, s', t', hstep, hone ▸ Nat.one_pos, row, hrow,
    hnumber ▸ Nat.one_pos⟩

end Solver

end

end OperatorSplitting
