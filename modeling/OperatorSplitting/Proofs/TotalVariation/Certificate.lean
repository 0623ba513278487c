import Mathlib
import OperatorSplitting.Proofs.Evaluation
import OperatorSplitting.Proofs.TotalVariation.Duality

/-!
# The gap of the reference solver

The reference solver of total variation returns a signal with the gap between its objective and the
dual objective of the last dual point.  That point is feasible: the start is zero, and every step cuts
off what is out of bounds (`DualState.IsFeasible`).  The points from which the steps are taken are
extrapolated and may be out of bounds; nothing depends on them.

So the gap is a certificate (`reference_certifies`): no signal has an objective below that of the
returned one by more than the gap, and the squared distance from the only minimizer is at most twice
the gap.

The solver keeps the matrix of the differences, whose entries are almost as many as the square of the
samples.  Samples that leave no room for it are not solved (`run_reference_eq_misuse`).
-/

namespace OperatorSplitting.TotalVariation

open AcceleratedGradient

noncomputable section

variable {y x w : Array ℝ} {lambda : ℝ}

/-! ### Minimizers -/

/-- A signal as long as the samples, with the least objective of all such signals. -/
def IsMinimizer (y : Array ℝ) (lambda : ℝ) (x : Array ℝ) : Prop :=
  x.size = y.size ∧ ∀ x' : Array ℝ, x'.size = y.size → objective y x lambda ≤ objective y x' lambda

theorem objective_eq_primal (hx : x.size = y.size) :
    objective y x lambda = primal lambda (toVector y.size y) (toVector y.size x) :=
  objective_eq rfl hx lambda

/-- The signal of a dual point at which the two objectives agree is the only minimizer. -/
theorem isMinimizer_iff {v : EuclideanSpace ℝ (Fin (y.size - 1))} (hv : Feasible lambda v)
    (hagree : primal lambda (toVector y.size y) (toVector y.size y - spread y.size v) =
      dual (toVector y.size y) v) :
    IsMinimizer y lambda x ↔ x = ofVector (toVector y.size y - spread y.size v) := by
  have hbound (x' : EuclideanSpace ℝ (Fin y.size)) := dual_add_le hv (toVector y.size y) x'
  have hsize : (ofVector (toVector y.size y - spread y.size v)).size = y.size := size_ofVector _
  have hvalue : objective y (ofVector (toVector y.size y - spread y.size v)) lambda =
      dual (toVector y.size y) v := by
    rw [objective_eq_primal hsize, toVector_ofVector, hagree]
  constructor
  · rintro ⟨hx, hmin⟩
    have hle := hmin _ hsize
    rw [hvalue, objective_eq_primal hx] at hle
    have hzero : ‖toVector y.size x - (toVector y.size y - spread y.size v)‖ ^ 2 ≤ 0 := by
      linarith [hbound (toVector y.size x)]
    have hsame : toVector y.size x = toVector y.size y - spread y.size v :=
      sub_eq_zero.mp (norm_eq_zero.mp (pow_eq_zero_iff two_ne_zero |>.mp
        (le_antisymm hzero (sq_nonneg _))))
    exact toVector_injective hx hsize (hsame.trans (toVector_ofVector _).symm)
  · rintro rfl
    refine ⟨hsize, fun x' hx' => ?_⟩
    rw [hvalue, objective_eq_primal hx']
    linarith [hbound (toVector y.size x'),
      sq_nonneg ‖toVector y.size x' - (toVector y.size y - spread y.size v)‖]

theorem existsUnique_isMinimizer (hlambda : 0 ≤ lambda) (y : Array ℝ) :
    ∃! x, IsMinimizer y lambda x := by
  obtain ⟨v, hv, -, hagree⟩ := exists_primal_eq_dual hlambda (toVector y.size y)
  exact ⟨_, (isMinimizer_iff hv hagree).mpr rfl, fun x hx => (isMinimizer_iff hv hagree).mp hx⟩

/-! ### The certificate -/

/-- Half the squared norm of the signal of a dual point is the energy of the point. -/
theorem half_mul_normSqr_primalPoint (y w : Array ℝ) (lambda : ℝ) :
    RealArithmetic.half * normSqr (primalPoint (.ofSamples y lambda) w) =
      energy (spread y.size) (toVector y.size y) (toVector (y.size - 1) w) := by
  rw [normSqr_eq (size_primalPoint y w lambda), toVector_primalPoint, energy]

/-- The gap is the difference of the two objectives. -/
theorem certificate_gap (y w : Array ℝ) (lambda : ℝ) :
    (certificate (.ofSamples y lambda) w).2.2 =
      objective y (primalPoint (.ofSamples y lambda) w) lambda -
        dual (toVector y.size y) (toVector (y.size - 1) w) := by
  have hdual : RealArithmetic.half * normSqr y -
      RealArithmetic.half * normSqr (primalPoint (.ofSamples y lambda) w) =
        dual (toVector y.size y) (toVector (y.size - 1) w) := by
    rw [half_mul_normSqr_primalPoint, normSqr_eq rfl, dual]
  rw [← hdual]
  rfl

/-- The gap of a feasible dual point bounds what any signal gains over the primal point, and how far
the signal is from it. -/
theorem certificate_sound (hw : Feasible lambda (toVector (y.size - 1) w)) (hx : x.size = y.size) :
    objective y (primalPoint (.ofSamples y lambda) w) lambda -
        (certificate (.ofSamples y lambda) w).2.2 +
          fidelity x (primalPoint (.ofSamples y lambda) w) / 2 ≤ objective y x lambda := by
  have hbound := dual_add_le hw (toVector y.size y) (toVector y.size x)
  rw [← objective_eq_primal hx, ← toVector_primalPoint y w lambda] at hbound
  rw [certificate_gap, fidelity_eq hx (size_primalPoint y w lambda), norm_sub_rev]
  linarith

theorem fidelity_nonneg (hx : x.size = y.size) : 0 ≤ fidelity y x := by
  rw [fidelity_eq rfl hx]
  exact sq_nonneg _

/-! ### The iteration -/

namespace DualState

/-- Both points have a coordinate for each pair of neighbours, and the point itself is feasible. -/
structure IsFeasible (y : Array ℝ) (lambda : ℝ) (s : DualState ℝ) : Prop where
  size_w : s.w.size = y.size - 1
  size_v : s.v.size = y.size - 1
  feasible : Feasible lambda (toVector (y.size - 1) s.w)

variable {s : DualState ℝ}

theorem toVector_replicate (n : ℕ) : toVector n (Array.replicate n 0) = 0 := by
  ext i
  simp

theorem isFeasible_start (hlambda : 0 ≤ lambda) : (start y.size).IsFeasible y lambda where
  size_w := Array.size_replicate
  size_v := Array.size_replicate
  feasible := by
    show Feasible lambda (toVector (y.size - 1) (Array.replicate (y.size - 1) 0))
    rw [toVector_replicate]
    exact feasible_zero hlambda

/-- A step projects a gradient step from the extrapolated point. -/
theorem IsFeasible.step_w_eq (h : s.IsFeasible y lambda) :
    toVector (y.size - 1) (s.step (.ofSamples y lambda)).w =
      projectedStep lambda (toVector y.size y) (toVector (y.size - 1) s.v) := by
  ext i
  exact toVector_step_w h.size_v i

/-- A step leads to a feasible point, wherever it was taken from. -/
theorem IsFeasible.step (h : s.IsFeasible y lambda) (hlambda : 0 ≤ lambda) :
    (s.step (.ofSamples y lambda)).IsFeasible y lambda where
  size_w := size_step_w lambda h.size_v
  size_v := size_step_v lambda h.size_w h.size_v
  feasible := by
    rw [h.step_w_eq]
    exact feasible_projectedStep hlambda _ _

end DualState

/-- What a step preserves holds at the end.  The end is within the number of iterations, and it is
reached before only with a gap within the tolerance. -/
theorem iterate_preserves {p : Problem ℝ} {P : DualState ℝ → Prop} (tol : ℝ) (n : ℕ)
    (hstep : ∀ {s : DualState ℝ}, P s → P (s.step p)) {s : DualState ℝ} (hs : P s) :
    P (iterate p tol n s) ∧ (iterate p tol n s).iteration ≤ s.iteration + n ∧
      ((iterate p tol n s).iteration < s.iteration + n →
        (certificate p (iterate p tol n s).w).2.2 ≤ tol) := by
  induction n generalizing s with
  | zero => exact ⟨hs, le_rfl, fun h => absurd h (lt_irrefl _)⟩
  | succ n ih =>
    rw [iterate]
    by_cases hgap : RealArithmetic.lt tol (certificate p s.w).2.2 = true
    · rw [if_pos hgap]
      obtain ⟨hend, hle, hstop⟩ := ih (hstep hs)
      have hcount : (s.step p).iteration = s.iteration + 1 := rfl
      rw [hcount] at hle hstop
      exact ⟨hend, by omega, fun h => hstop (by omega)⟩
    · rw [if_neg hgap]
      have hle : (certificate p s.w).2.2 ≤ tol := by
        simpa [RealArithmetic.lt] using hgap
      exact ⟨hs, Nat.le_add_right _ _, fun _ => hle⟩

/-! ### The solver -/

variable {K : Type}

/-- The result for a state of the iteration. -/
def DualState.result (p : Problem ℝ) (s : DualState ℝ) : Reference ℝ :=
  ⟨primalPoint p s.w, objective p.y (primalPoint p s.w) p.lambda, (certificate p s.w).2.2, s.iteration⟩

theorem isNonNegative_of_le (hlambda : 0 ≤ lambda) :
    (!(RealArithmetic.isNonNegative lambda)) = false := by
  simp [RealArithmetic.isNonNegative, RealArithmetic.le, RealArithmetic.isFinite, hlambda]

/-- With two samples at least, a weight that is not negative and room for the matrix of the
differences, the solver returns the result for the last state. -/
theorem run_reference (hy : 2 ≤ y.size) (hlambda : 0 ≤ lambda)
    (hroom : Storable [y.size - 1, y.size]) (maxIter : ℕ) (tol : ℝ) (t : Trace K ℝ) :
    ∃ t', (reference y lambda maxIter tol : Eval K ℝ _).run t =
      (.ok ((iterate (.ofSamples y lambda) tol maxIter (.start y.size)).result
        (.ofSamples y lambda)), t') := by
  have hmatrix : differenceMatrix? y.size = some (differenceMatrix y.size : DenseMatrix ℝ) :=
    differenceMatrix?_eq_some_iff.mpr ⟨hroom, rfl⟩
  unfold reference
  rw [if_neg (not_lt.mpr hy), isNonNegative_of_le hlambda, hmatrix]
  exact ⟨_, rfl⟩

/-- Without room for the matrix the solver fails before its first iteration. -/
theorem run_reference_eq_misuse (hy : 2 ≤ y.size) (hlambda : 0 ≤ lambda)
    (hroom : ¬ Storable [y.size - 1, y.size]) (maxIter : ℕ) (tol : ℝ) (t : Trace K ℝ) :
    (reference y lambda maxIter tol : Eval K ℝ _).run t = (.error .misuse, t) := by
  have hmatrix : differenceMatrix? y.size = (none : Option (DenseMatrix ℝ)) := if_neg hroom
  unfold reference
  rw [if_neg (not_lt.mpr hy), isNonNegative_of_le hlambda, hmatrix]
  rfl

/-- What the solver returns is the result for the last state, if it returns. -/
theorem eq_result_of_run_reference {maxIter : ℕ} {tol : ℝ} {t t' : Trace K ℝ} {r : Reference ℝ}
    (hy : 2 ≤ y.size) (hlambda : 0 ≤ lambda)
    (hrun : (reference y lambda maxIter tol : Eval K ℝ _).run t = (.ok r, t')) :
    r = (iterate (.ofSamples y lambda) tol maxIter (.start y.size)).result
      (.ofSamples y lambda) := by
  by_cases hroom : Storable [y.size - 1, y.size]
  · obtain ⟨t'', hresult⟩ := run_reference hy hlambda hroom maxIter tol t
    exact Except.ok.inj (congrArg Prod.fst (hrun.symm.trans hresult))
  · rw [run_reference_eq_misuse hy hlambda hroom] at hrun
    cases hrun

/-- **The gap is a certificate.**  With two samples at least, a weight that is not negative and room
for the matrix of the differences, the solver returns a signal as long as the samples, with its
objective.  The gap is not negative, and no signal of that length has an objective below that of the
returned one by more than the gap.  There is only one minimizer, and the squared distance from it is
at most twice the gap.  The solver stops before its iterations are used up only with a gap within the
tolerance. -/
theorem reference_certifies (hy : 2 ≤ y.size) (hlambda : 0 ≤ lambda)
    (hroom : Storable [y.size - 1, y.size]) (maxIter : ℕ) (tol : ℝ) (t : Trace K ℝ) :
    ∃ r t', (reference y lambda maxIter tol : Eval K ℝ _).run t = (.ok r, t') ∧
      r.x.size = y.size ∧ r.objective = objective y r.x lambda ∧ 0 ≤ r.gap ∧
      (∀ x' : Array ℝ, x'.size = y.size → r.objective - r.gap ≤ objective y x' lambda) ∧
      (∃ x, IsMinimizer y lambda x ∧ (∀ x', IsMinimizer y lambda x' → x' = x) ∧
        fidelity x r.x ≤ 2 * r.gap) ∧
      r.iterations ≤ maxIter ∧ (r.iterations < maxIter → r.gap ≤ tol) := by
  obtain ⟨t', hrun⟩ := run_reference hy hlambda hroom maxIter tol t
  obtain ⟨hend, hle, hstop⟩ := iterate_preserves (p := .ofSamples y lambda)
    (P := DualState.IsFeasible y lambda) tol maxIter (fun hs => hs.step hlambda)
    (DualState.isFeasible_start hlambda)
  rw [show (DualState.start y.size : DualState ℝ).iteration = 0 from rfl, Nat.zero_add] at hle hstop
  set s := iterate (.ofSamples y lambda) tol maxIter (.start y.size)
  have hsize : (s.result (.ofSamples y lambda)).x.size = y.size := size_primalPoint y s.w lambda
  have hsound {x : Array ℝ} (hx : x.size = y.size) :
      (s.result (.ofSamples y lambda)).objective - (s.result (.ofSamples y lambda)).gap +
        fidelity x (s.result (.ofSamples y lambda)).x / 2 ≤ objective y x lambda :=
    certificate_sound hend.feasible hx
  obtain ⟨x, hx, hunique⟩ := existsUnique_isMinimizer hlambda y
  refine ⟨_, t', hrun, hsize, rfl, ?_, fun x' hx' => ?_, ⟨x, hx, hunique, ?_⟩, hle, hstop⟩
  · have hself := hsound hsize
    have hobjective : (s.result (.ofSamples y lambda)).objective =
        objective y (s.result (.ofSamples y lambda)).x lambda := rfl
    linarith [fidelity_nonneg (y := (s.result (.ofSamples y lambda)).x) rfl]
  · linarith [hsound hx', fidelity_nonneg (hsize.trans hx'.symm)]
  · have hmin : objective y x lambda ≤ (s.result (.ofSamples y lambda)).objective := hx.2 _ hsize
    linarith [hsound hx.1]

/-- Three samples with a jump, after one iteration. -/
theorem reference_certifies_jump : 2 ≤ #[(0 : ℝ), 0, 6].size ∧ (0 : ℝ) ≤ 1 ∧
    Storable [#[(0 : ℝ), 0, 6].size - 1, #[(0 : ℝ), 0, 6].size] ∧
    ∃ r t', (reference #[0, 0, 6] 1 1 0 : Eval ℝ ℝ _).run .empty = (.ok r, t') ∧
      r.x.size = 3 ∧ r.objective = objective #[0, 0, 6] r.x 1 ∧ 0 ≤ r.gap ∧
      (∀ x' : Array ℝ, x'.size = 3 → r.objective - r.gap ≤ objective #[0, 0, 6] x' 1) ∧
      (∃ x, IsMinimizer #[0, 0, 6] 1 x ∧ (∀ x', IsMinimizer #[0, 0, 6] 1 x' → x' = x) ∧
        fidelity x r.x ≤ 2 * r.gap) ∧
      r.iterations ≤ 1 ∧ (r.iterations < 1 → r.gap ≤ 0) :=
  ⟨by decide, zero_le_one, by decide,
    reference_certifies (by decide) zero_le_one (by decide) 1 0 (.empty : Trace ℝ ℝ)⟩

/-- Memory does not hold the matrix of the differences of `2 ^ 30 + 1` samples. -/
theorem not_storable_differences : ¬ Storable [2 ^ 30 + 1 - 1, 2 ^ 30 + 1] := by decide

/-- There are samples that memory holds, but not the matrix of their differences; then the solver
returns nothing. -/
theorem exists_reference_eq_misuse : ∃ y : Array ℝ, y = Array.replicate (2 ^ 30 + 1) 0 ∧
    2 ≤ y.size ∧ Storable [y.size] ∧ (0 : ℝ) ≤ 1 ∧ ∀ (maxIter : ℕ) (tol : ℝ),
      (reference y 1 maxIter tol : Eval ℝ ℝ _).run .empty = (.error .misuse, .empty) := by
  obtain ⟨y, hy⟩ : ∃ y : Array ℝ, y = Array.replicate (2 ^ 30 + 1) 0 := ⟨_, rfl⟩
  have hsize : y.size = 2 ^ 30 + 1 := by rw [hy, Array.size_replicate]
  have htwo : 2 ≤ y.size := by omega
  have hroom : ¬ Storable [y.size - 1, y.size] := by
    rw [hsize]
    exact not_storable_differences
  refine ⟨y, hy, htwo, ?_, zero_le_one, fun maxIter tol => ?_⟩
  · rw [hsize]
    decide
  · exact run_reference_eq_misuse htwo zero_le_one hroom maxIter tol _

end

end OperatorSplitting.TotalVariation
