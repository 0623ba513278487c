import Mathlib
import OperatorSplitting.Proofs.TotalVariation.Certificate

/-!
# The rate of the reference solver

The dual iteration of the reference solver is accelerated: a step is taken from a point that is
extrapolated with growing momentum.  Its potential, compared with an optimal dual point, starts at
twice the squared norm of that point and never grows (`DualState.IsAccelerated.step`).  After `k`
iterations the momentum gives the energy a weight of at least `(k + 1)² / 4`, and no coordinate of the
optimal point exceeds the weight of the variation.  So half the squared norm of the returned signal is
above that of the minimizer by at most `8 (n - 1) λ² / (k + 1)²` (`reference_rate`).

The first iteration is needed.  Before it the signal is that of the samples, and half its squared norm
may be as far above as one likes (`exists_rate_fails_at_start`).
-/

namespace OperatorSplitting.TotalVariation

open AcceleratedGradient

noncomputable section

variable {y x w : Array ℝ} {lambda : ℝ}

namespace DualState

/-- What holds after every number of steps, compared with a dual point `z`: the momentum has grown by
one half for each step, from the first step on the energy has a weight, and the potential is not above
its first value. -/
structure IsAccelerated (y : Array ℝ) (lambda : ℝ) (z : EuclideanSpace ℝ (Fin (y.size - 1)))
    (s : DualState ℝ) : Prop extends s.IsFeasible y lambda where
  momentum_ge : ((s.iteration : ℝ) + 2) / 2 ≤ s.momentum
  weight_ge : s.iteration ≠ 0 → (((s.iteration : ℝ) + 1) / 2) ^ 2 ≤ s.momentum ^ 2 - s.momentum
  potential_le : potential (spread y.size) (toVector y.size y) z s.momentum
    (toVector (y.size - 1) s.w) (toVector (y.size - 1) s.v) ≤ 2 * ‖z‖ ^ 2

variable {s : DualState ℝ} {z : EuclideanSpace ℝ (Fin (y.size - 1))}

theorem isAccelerated_start (hlambda : 0 ≤ lambda) (z : EuclideanSpace ℝ (Fin (y.size - 1))) :
    (start y.size).IsAccelerated y lambda z where
  toIsFeasible := isFeasible_start hlambda
  momentum_ge := by
    show (((0 : ℕ) : ℝ) + 2) / 2 ≤ 1
    norm_num
  weight_ge := fun h => absurd rfl h
  potential_le := by
    show potential (spread y.size) (toVector y.size y) z 1
      (toVector (y.size - 1) (Array.replicate (y.size - 1) 0))
      (toVector (y.size - 1) (Array.replicate (y.size - 1) 0)) ≤ _
    rw [toVector_replicate, potential, smul_zero, smul_zero, sub_zero, zero_sub, norm_neg, one_pow,
      sub_self, zero_mul, zero_add, RealArithmetic.two_eq]

/-- A step keeps the potential down, if the point of comparison is feasible. -/
theorem IsAccelerated.step (h : s.IsAccelerated y lambda z) (hlambda : 0 ≤ lambda)
    (hz : Feasible lambda z) : (s.step (.ofSamples y lambda)).IsAccelerated y lambda z := by
  have hcount : (((s.step (.ofSamples y lambda)).iteration : ℕ) : ℝ) = (s.iteration : ℝ) + 1 :=
    Nat.cast_succ s.iteration
  have hiteration : (0 : ℝ) ≤ s.iteration := Nat.cast_nonneg _
  have hone : 1 ≤ s.momentum := by linarith [h.momentum_ge]
  have hgrows := add_half_le_nextMomentum s.momentum
  have hpos : nextMomentum s.momentum ≠ 0 := by linarith
  refine ⟨h.toIsFeasible.step hlambda, ?_, fun _ => ?_, ?_⟩
  · rw [hcount, step_momentum]
    linarith [h.momentum_ge]
  · rw [hcount, step_momentum, nextMomentum_sq_sub]
    refine pow_le_pow_left₀ (by positivity) ?_ 2
    linarith [h.momentum_ge]
  · have hpoint := h.step_w_eq
    have hv := toVector_step_v lambda h.size_w h.size_v
    have hextrapolated : nextMomentum s.momentum •
        toVector (y.size - 1) (s.step (.ofSamples y lambda)).v =
          nextMomentum s.momentum • toVector (y.size - 1) (s.step (.ofSamples y lambda)).w +
            (s.momentum - 1) • (toVector (y.size - 1) (s.step (.ofSamples y lambda)).w -
              toVector (y.size - 1) s.w) := by
      rw [hv, smul_add, smul_smul, mul_div_cancel₀ _ hpos]
    rw [step_momentum]
    rw [hpoint] at hextrapolated ⊢
    exact ((isTranspose y.size).potential_step_le hone (obtuse_projectedStep _ _ h.feasible)
      (obtuse_projectedStep _ _ hz) (nextMomentum_sq_sub _) hextrapolated).trans h.potential_le

/-- From the first step on the energy falls with the square of the number of steps. -/
theorem IsAccelerated.energy_sub_le (h : s.IsAccelerated y lambda z) (hz : Feasible lambda z)
    (hmin : energy (spread y.size) (toVector y.size y) z ≤
      energy (spread y.size) (toVector y.size y) (toVector (y.size - 1) s.w))
    (hiteration : 1 ≤ s.iteration) :
    energy (spread y.size) (toVector y.size y) (toVector (y.size - 1) s.w) -
        energy (spread y.size) (toVector y.size y) z ≤
      8 * ((y.size - 1 : ℕ) : ℝ) * lambda ^ 2 / ((s.iteration : ℝ) + 1) ^ 2 := by
  have hweight := mul_le_mul_of_nonneg_right (h.weight_ge (by omega)) (sub_nonneg.mpr hmin)
  have hpotential := h.potential_le
  rw [potential, RealArithmetic.two_eq] at hpotential
  have hsquare : 0 ≤ 2 * ‖s.momentum • toVector (y.size - 1) s.v -
      (s.momentum - 1) • toVector (y.size - 1) s.w - z‖ ^ 2 := by positivity
  rw [le_div_iff₀ (by positivity)]
  linarith [hz.normSqr_le]

end DualState

/-! ### The start -/

/-- The signal of the dual point zero is that of the samples. -/
theorem primalPoint_start (y : Array ℝ) (lambda : ℝ) :
    primalPoint (.ofSamples y lambda) (DualState.start y.size).w = y := by
  refine toVector_injective (size_primalPoint y _ lambda) rfl ?_
  rw [toVector_primalPoint]
  show toVector y.size y - spread y.size (toVector (y.size - 1) (Array.replicate (y.size - 1) 0)) = _
  rw [DualState.toVector_replicate, map_zero, sub_zero]

/-- The gap at the start is the weighted variation of the samples. -/
theorem certificate_start (y : Array ℝ) (lambda : ℝ) :
    (certificate (.ofSamples y lambda) (DualState.start y.size).w).2.2 = lambda * variation y := by
  have hdual : dual (toVector y.size y)
      (toVector (y.size - 1) (DualState.start y.size : DualState ℝ).w) = 0 := by
    show dual _ (toVector (y.size - 1) (Array.replicate (y.size - 1) 0)) = 0
    rw [DualState.toVector_replicate, dual, energy, map_zero, sub_zero, sub_self]
  rw [certificate_gap, primalPoint_start, hdual, objective, fidelity_eq rfl rfl, sub_self, norm_zero]
  ring

variable {K : Type} {maxIter : ℕ} {tol : ℝ} {t t' : Trace K ℝ} {r : Reference ℝ}

/-- The first iteration is taken, if one is allowed and the weighted variation of the samples is not
within the tolerance. -/
theorem one_le_iterations (hy : 2 ≤ y.size) (hlambda : 0 ≤ lambda) (hmax : 1 ≤ maxIter)
    (htol : tol < lambda * variation y)
    (hrun : (reference y lambda maxIter tol : Eval K ℝ _).run t = (.ok r, t')) :
    1 ≤ r.iterations := by
  have hr := eq_result_of_run_reference hy hlambda hrun
  obtain ⟨n, rfl⟩ := Nat.exists_eq_add_of_le' hmax
  have hgap : RealArithmetic.lt tol
      (certificate (.ofSamples y lambda) (DualState.start y.size).w).2.2 = true := by
    rw [certificate_start]
    exact decide_eq_true htol
  have hcount : 1 ≤ (iterate (.ofSamples y lambda) tol n
      ((DualState.start y.size).step (.ofSamples y lambda))).iteration :=
    (iterate_preserves (P := fun s => 1 ≤ s.iteration) tol n
      (fun hs => hs.trans (Nat.le_succ _)) (Nat.le_add_left 1 0)).1
  rw [hr, iterate, if_pos hgap]
  exact hcount

/-- Without iterations the solver returns the samples. -/
theorem run_reference_zero (hy : 2 ≤ y.size) (hlambda : 0 ≤ lambda)
    (hroom : Storable [y.size - 1, y.size]) (tol : ℝ) (t : Trace K ℝ) :
    ∃ r t', (reference y lambda 0 tol : Eval K ℝ _).run t = (.ok r, t') ∧ r.iterations = 0 ∧
      r.x = y := by
  obtain ⟨t', hrun⟩ := run_reference hy hlambda hroom 0 tol t
  exact ⟨_, t', hrun, rfl, primalPoint_start y lambda⟩

/-! ### The rate -/

/-- The transposed differences stretch a vector at most by two. -/
theorem normSqr_transposed_le (n : ℕ) (hw : w.size = n - 1) :
    normSqr ((transposed (differenceMatrix n)).mulVec w) ≤ 4 * normSqr w := by
  have hsize : ((transposed (differenceMatrix n)).mulVec w).size = n := size_mulVec _ _
  rw [normSqr_eq hsize, normSqr_eq hw, toVector_mulVec_transposed]
  exact (isTranspose n).normSqr_le _

/-- **The accelerated rate.**  With two samples at least and a weight that is not negative, the solver
returns a signal where memory holds the matrix of the differences.  What it returns after `k`
iterations, where `k` is not zero, has half its squared norm above that of the only minimizer by at
most `8 (n - 1) λ² / (k + 1)²`.  Steps of length one quarter may be taken, as the transposed
differences stretch no vector by more than two. -/
theorem reference_rate (hy : 2 ≤ y.size) (hlambda : 0 ≤ lambda) (maxIter : ℕ) (tol : ℝ)
    (t : Trace K ℝ) :
    (Storable [y.size - 1, y.size] →
      ∃ r t', (reference y lambda maxIter tol : Eval K ℝ _).run t = (.ok r, t')) ∧
      (∀ r t', (reference y lambda maxIter tol : Eval K ℝ _).run t = (.ok r, t') →
        ∃ x, IsMinimizer y lambda x ∧ (∀ x', IsMinimizer y lambda x' → x' = x) ∧
          (1 ≤ r.iterations → RealArithmetic.half * normSqr r.x - RealArithmetic.half * normSqr x ≤
            8 * ((y.size : ℝ) - 1) * lambda ^ 2 / ((r.iterations : ℝ) + 1) ^ 2)) ∧
      ∀ (n : ℕ) (w : Array ℝ), w.size = n - 1 →
        normSqr ((transposed (differenceMatrix n)).mulVec w) ≤ 4 * normSqr w := by
  refine ⟨fun hroom => ⟨_, run_reference hy hlambda hroom maxIter tol t⟩, fun r t' hrun => ?_,
    fun n w hw => normSqr_transposed_le n hw⟩
  obtain ⟨z, hz, hmin, hagree⟩ := exists_primal_eq_dual hlambda (toVector y.size y)
  obtain ⟨hend, -, -⟩ := iterate_preserves (p := .ofSamples y lambda)
    (P := DualState.IsAccelerated y lambda z) tol maxIter (fun hs => hs.step hlambda hz)
    (DualState.isAccelerated_start hlambda z)
  rw [eq_result_of_run_reference hy hlambda hrun]
  set s := iterate (.ofSamples y lambda) tol maxIter (.start y.size)
  refine ⟨ofVector (toVector y.size y - spread y.size z), (isMinimizer_iff hz hagree).mpr rfl,
    fun x' hx' => (isMinimizer_iff hz hagree).mp hx', fun hiteration => ?_⟩
  have hreturned : RealArithmetic.half * normSqr (s.result (.ofSamples y lambda)).x =
      energy (spread y.size) (toVector y.size y) (toVector (y.size - 1) s.w) :=
    half_mul_normSqr_primalPoint y s.w lambda
  have hminimizer : RealArithmetic.half * normSqr (ofVector (toVector y.size y - spread y.size z)) =
      energy (spread y.size) (toVector y.size y) z := by
    rw [normSqr_eq (size_ofVector _), toVector_ofVector, energy]
  have hrate := hend.energy_sub_le hz (hmin _ hend.feasible) hiteration
  rw [Nat.cast_sub (by omega), Nat.cast_one] at hrate
  rw [hreturned, hminimizer]
  exact hrate

/-- Three samples with a jump, after the one iteration that is allowed. -/
theorem reference_rate_jump : 2 ≤ #[(0 : ℝ), 0, 6].size ∧ (0 : ℝ) ≤ 1 ∧
    ∃ r t', (reference #[0, 0, 6] 1 1 0 : Eval ℝ ℝ _).run .empty = (.ok r, t') ∧
      1 ≤ r.iterations ∧ ∃ x, IsMinimizer #[0, 0, 6] 1 x ∧
        RealArithmetic.half * normSqr r.x - RealArithmetic.half * normSqr x ≤
          8 * ((3 : ℝ) - 1) * 1 ^ 2 / ((r.iterations : ℝ) + 1) ^ 2 := by
  have hvariation : variation #[(0 : ℝ), 0, 6] = 6 := by
    rw [variation_eq (n := 3) rfl, Fin.sum_univ_two, differences_apply, differences_apply]
    simp
  obtain ⟨hreturns, hbound, -⟩ :=
    reference_rate (y := #[0, 0, 6]) (by decide) zero_le_one 1 0 (.empty : Trace ℝ ℝ)
  obtain ⟨r, t', hrun⟩ := hreturns (by decide)
  obtain ⟨x, hx, -, hrate⟩ := hbound r t' hrun
  have hiteration : 1 ≤ r.iterations := by
    refine one_le_iterations (by decide) zero_le_one le_rfl ?_ hrun
    rw [hvariation]
    norm_num
  refine ⟨by decide, zero_le_one, r, t', hrun, hiteration, x, hx, ?_⟩
  have hthree : (#[(0 : ℝ), 0, 6].size : ℝ) = 3 := by norm_num
  rw [← hthree]
  exact hrate hiteration

theorem objective_pair (a b c d lambda : ℝ) : objective #[a, b] #[c, d] lambda =
    ((c - a) ^ 2 + (d - b) ^ 2) / 2 + lambda * |d - c| := by
  rw [objective_eq (n := 2) rfl rfl, EuclideanSpace.norm_sq_eq, Fin.sum_univ_two, Fin.sum_univ_one,
    differences_apply, RealArithmetic.half_eq, one_div_mul_eq_div]
  simp

/-- Two samples that are far apart move towards each other by the weight. -/
theorem isMinimizer_pair {a b : ℝ} (hlambda : 0 ≤ lambda) (hab : 2 * lambda ≤ b - a) :
    IsMinimizer #[a, b] lambda #[a + lambda, b - lambda] := by
  refine ⟨rfl, fun x' hx' => ?_⟩
  obtain ⟨c, d, rfl⟩ : ∃ c d, x' = #[c, d] := by
    rcases x' with ⟨⟨⟩ | ⟨c, ⟨⟩ | ⟨d, ⟨⟩ | ⟨e, l⟩⟩⟩⟩ <;> simp at hx'
    exact ⟨c, d, rfl⟩
  have hmodulus : |b - lambda - (a + lambda)| = b - lambda - (a + lambda) :=
    abs_of_nonneg (by linarith)
  have hweighted := mul_le_mul_of_nonneg_left (le_abs_self (d - c)) hlambda
  rw [objective_pair, objective_pair, hmodulus]
  nlinarith [sq_nonneg (c - a - lambda), sq_nonneg (d - b + lambda)]

/-- Before the first iteration the bound may fail: with the samples 0 and 20 and the weight 1, half the
squared norm is above that of the minimizer by 19, and the bound is 8. -/
theorem exists_rate_fails_at_start : ∃ r t',
    (reference #[0, 20] 1 0 0 : Eval ℝ ℝ _).run .empty = (.ok r, t') ∧ r.iterations = 0 ∧
      ∃ x, IsMinimizer #[0, 20] 1 x ∧
        ¬ RealArithmetic.half * normSqr r.x - RealArithmetic.half * normSqr x ≤
          8 * ((2 : ℝ) - 1) * 1 ^ 2 / ((r.iterations : ℝ) + 1) ^ 2 := by
  obtain ⟨r, t', hrun, hzero, hx⟩ := run_reference_zero (y := #[0, 20]) (by decide) zero_le_one
    (by decide) 0 (.empty : Trace ℝ ℝ)
  refine ⟨r, t', hrun, hzero, _, isMinimizer_pair zero_le_one (by norm_num), ?_⟩
  rw [hx, hzero, normSqr_eq (n := 2) rfl, normSqr_eq (n := 2) rfl, EuclideanSpace.norm_sq_eq,
    EuclideanSpace.norm_sq_eq, Fin.sum_univ_two, Fin.sum_univ_two]
  norm_num [RealArithmetic.half_eq]

end

end OperatorSplitting.TotalVariation
