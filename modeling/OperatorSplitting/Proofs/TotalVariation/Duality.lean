import Mathlib
import OperatorSplitting.Proofs.TotalVariation.Vectors

/-!
# The dual problem of total variation

A dual point has one coordinate for each pair of neighbours, and is feasible if no coordinate exceeds
the weight of the variation.  It stands for the signal that is left of the samples when its image
under the transpose is taken away.  Its dual objective is below the objective of every signal, by half
the squared distance from the signal that it stands for (`dual_add_le`).

The dual objective has a maximum, because the feasible points are a compact set.  At the maximum a
projected gradient step changes nothing, and so the two objectives agree there
(`exists_primal_eq_dual`): the signal of the maximum is the only minimizer of the objective.
-/

namespace OperatorSplitting.TotalVariation

open AcceleratedGradient

noncomputable section

variable {m n : ℕ} {lambda : ℝ}

/-! ### Feasible points -/

/-- No coordinate exceeds the weight. -/
def Feasible (lambda : ℝ) (w : EuclideanSpace ℝ (Fin m)) : Prop := ∀ i, |w i| ≤ lambda

theorem feasible_zero (hlambda : 0 ≤ lambda) : Feasible lambda (0 : EuclideanSpace ℝ (Fin m)) := by
  intro i
  rw [PiLp.zero_apply, abs_zero]
  exact hlambda

theorem isCompact_feasible (m : ℕ) (lambda : ℝ) :
    IsCompact {w : EuclideanSpace ℝ (Fin m) | Feasible lambda w} := by
  have hbox : IsCompact (Set.pi Set.univ fun _ : Fin m => Set.Icc (-lambda) lambda) :=
    isCompact_univ_pi fun _ => isCompact_Icc
  have himage : {w : EuclideanSpace ℝ (Fin m) | Feasible lambda w} =
      WithLp.toLp 2 '' Set.pi Set.univ fun _ : Fin m => Set.Icc (-lambda) lambda := by
    ext w
    constructor
    · intro hw
      exact ⟨w.ofLp, fun i _ => abs_le.mp (hw i), rfl⟩
    · rintro ⟨u, hu, rfl⟩ i
      exact abs_le.mpr (hu i (Set.mem_univ i))
  rw [himage]
  exact hbox.image (PiLp.continuous_toLp 2 _)

/-- The squared norm of a feasible point. -/
theorem Feasible.normSqr_le {w : EuclideanSpace ℝ (Fin m)} (hw : Feasible lambda w) :
    ‖w‖ ^ 2 ≤ m * lambda ^ 2 := by
  rw [EuclideanSpace.norm_sq_eq]
  calc ∑ i, ‖w i‖ ^ 2 ≤ ∑ _i : Fin m, lambda ^ 2 :=
        Finset.sum_le_sum fun i _ => pow_le_pow_left₀ (norm_nonneg _) (hw i) 2
    _ = m * lambda ^ 2 := by rw [Finset.sum_const, Finset.card_univ, Fintype.card_fin, nsmul_eq_mul]

/-! ### Projection -/

theorem clamp_eq (r low high : ℝ) :
    RealArithmetic.clamp r low high = if r < low then low else if high < r then high else r := by
  simp [RealArithmetic.clamp, RealArithmetic.lt]

theorem abs_clamp_le (hlambda : 0 ≤ lambda) (r : ℝ) :
    |RealArithmetic.clamp r (-lambda) lambda| ≤ lambda := by
  rw [clamp_eq, abs_le]
  split
  · exact ⟨le_rfl, by linarith⟩
  · split
    · exact ⟨by linarith, le_rfl⟩
    · constructor <;> linarith

/-- What cutting off takes away points out of the interval. -/
theorem clamp_obtuse {r z : ℝ} (hz : |z| ≤ lambda) :
    (r - RealArithmetic.clamp r (-lambda) lambda) *
      (z - RealArithmetic.clamp r (-lambda) lambda) ≤ 0 := by
  obtain ⟨hlow, hhigh⟩ := abs_le.mp hz
  rw [clamp_eq]
  split
  · exact mul_nonpos_of_nonpos_of_nonneg (by linarith) (by linarith)
  · split
    · exact mul_nonpos_of_nonneg_of_nonpos (by linarith) (by linarith)
    · rw [sub_self, zero_mul]

/-- A gradient step from `v`, with every coordinate that is out of bounds cut off. -/
def projectedStep (lambda : ℝ) (y : EuclideanSpace ℝ (Fin n))
    (v : EuclideanSpace ℝ (Fin (n - 1))) : EuclideanSpace ℝ (Fin (n - 1)) :=
  WithLp.toLp _ fun i => RealArithmetic.clamp
    ((v + stepLength • differences n (y - spread n v)) i) (-lambda) lambda

theorem feasible_projectedStep (hlambda : 0 ≤ lambda) (y : EuclideanSpace ℝ (Fin n))
    (v : EuclideanSpace ℝ (Fin (n - 1))) : Feasible lambda (projectedStep lambda y v) :=
  fun _ => abs_clamp_le hlambda _

theorem obtuse_projectedStep (y : EuclideanSpace ℝ (Fin n)) (v : EuclideanSpace ℝ (Fin (n - 1)))
    {z : EuclideanSpace ℝ (Fin (n - 1))} (hz : Feasible lambda z) :
    Obtuse (differences n) (spread n) y v (projectedStep lambda y v) z := by
  rw [Obtuse, PiLp.inner_apply]
  refine Finset.sum_nonpos fun i _ => ?_
  rw [PiLp.sub_apply, PiLp.sub_apply, RCLike.inner_apply, conj_trivial, mul_comm]
  exact clamp_obtuse (hz i)

/-! ### The two objectives -/

/-- The objective of a vector. -/
def primal (lambda : ℝ) (y x : EuclideanSpace ℝ (Fin n)) : ℝ :=
  RealArithmetic.half * ‖x - y‖ ^ 2 + lambda * ∑ i, |differences n x i|

/-- The dual objective. -/
def dual (y : EuclideanSpace ℝ (Fin n)) (w : EuclideanSpace ℝ (Fin (n - 1))) : ℝ :=
  RealArithmetic.half * ‖y‖ ^ 2 - energy (spread n) y w

variable {y x : EuclideanSpace ℝ (Fin n)} {w : EuclideanSpace ℝ (Fin (n - 1))}

/-- No feasible point gives more than the weighted variation. -/
theorem Feasible.inner_le (hw : Feasible lambda w) (d : EuclideanSpace ℝ (Fin (n - 1))) :
    inner ℝ d w ≤ lambda * ∑ i, |d i| := by
  rw [PiLp.inner_apply, Finset.mul_sum]
  refine Finset.sum_le_sum fun i _ => ?_
  rw [RCLike.inner_apply, conj_trivial]
  calc w i * d i ≤ |w i * d i| := le_abs_self _
    _ = |w i| * |d i| := abs_mul _ _
    _ ≤ lambda * |d i| := mul_le_mul_of_nonneg_right (hw i) (abs_nonneg _)

/-- Some feasible point gives the weighted variation. -/
theorem exists_feasible_inner_eq (hlambda : 0 ≤ lambda) (d : EuclideanSpace ℝ (Fin m)) :
    ∃ z, Feasible lambda z ∧ inner ℝ d z = lambda * ∑ i, |d i| := by
  refine ⟨WithLp.toLp 2 fun i => if 0 ≤ d i then lambda else -lambda, fun i => ?_, ?_⟩
  · show |if 0 ≤ d i then lambda else -lambda| ≤ lambda
    split
    · exact (abs_of_nonneg hlambda).le
    · exact (abs_neg lambda).trans_le (abs_of_nonneg hlambda).le
  · rw [PiLp.inner_apply, Finset.mul_sum]
    refine Finset.sum_congr rfl fun i _ => ?_
    rw [RCLike.inner_apply, conj_trivial]
    show (if 0 ≤ d i then lambda else -lambda) * d i = lambda * |d i|
    split
    · next h => rw [abs_of_nonneg h]
    · next h => rw [abs_of_neg (not_le.mp h), mul_neg, neg_mul]

/-- The objective at a signal, measured from the signal of a dual point. -/
theorem primal_eq (lambda : ℝ) (y x : EuclideanSpace ℝ (Fin n))
    (w : EuclideanSpace ℝ (Fin (n - 1))) :
    primal lambda y x = dual y w + ‖x - (y - spread n w)‖ ^ 2 / 2 +
      (lambda * ∑ i, |differences n x i| - inner ℝ (differences n x) w) := by
  have hsplit : x - (y - spread n w) = (x - y) + spread n w := by abel
  rw [primal, dual, energy, hsplit, norm_add_sq_real, norm_sub_sq_real y, (isTranspose n).inner_map,
    inner_sub_left, RealArithmetic.half_eq]
  ring

/-- The dual objective of a feasible point is below the objective of every signal, by half the squared
distance from the signal of the point. -/
theorem dual_add_le (hw : Feasible lambda w) (y x : EuclideanSpace ℝ (Fin n)) :
    dual y w + ‖x - (y - spread n w)‖ ^ 2 / 2 ≤ primal lambda y x := by
  rw [primal_eq lambda y x w]
  exact le_add_of_nonneg_right (sub_nonneg.mpr (hw.inner_le _))

/-! ### The optimum -/

/-- There is a feasible point of least energy. -/
theorem exists_minimal_energy (hlambda : 0 ≤ lambda) (y : EuclideanSpace ℝ (Fin n)) :
    ∃ w, Feasible lambda w ∧ ∀ z, Feasible lambda z →
      energy (spread n) y w ≤ energy (spread n) y z := by
  have hcontinuous : Continuous fun w => energy (spread n) y w := by
    have hspread : Continuous (spread n) := (spread n).continuous_of_finiteDimensional
    unfold energy
    fun_prop
  obtain ⟨w, hw, hmin⟩ := (isCompact_feasible (n - 1) lambda).exists_isMinOn
    ⟨0, feasible_zero hlambda⟩ hcontinuous.continuousOn
  exact ⟨w, hw, fun z hz => hmin hz⟩

/-- At a feasible point of least energy the two objectives agree. -/
theorem exists_primal_eq_dual (hlambda : 0 ≤ lambda) (y : EuclideanSpace ℝ (Fin n)) :
    ∃ w, Feasible lambda w ∧ (∀ z, Feasible lambda z →
        energy (spread n) y w ≤ energy (spread n) y z) ∧
      primal lambda y (y - spread n w) = dual y w := by
  obtain ⟨w, hw, hmin⟩ := exists_minimal_energy hlambda y
  refine ⟨w, hw, hmin, ?_⟩
  -- A projected step from the optimum stays there, so no feasible direction ascends.
  have hstays : projectedStep lambda y w = w :=
    (isTranspose n).eq_of_minimal (obtuse_projectedStep y w hw)
      (hmin _ (feasible_projectedStep hlambda y w))
  obtain ⟨z, hz, hzinner⟩ :=
    exists_feasible_inner_eq hlambda (differences n (y - spread n w))
  have hobtuse := obtuse_projectedStep y w hz
  rw [Obtuse, hstays, add_sub_cancel_left, real_inner_smul_left, inner_sub_right, hzinner,
    stepLength_eq] at hobtuse
  have hbound := hw.inner_le (differences n (y - spread n w))
  rw [primal_eq lambda y (y - spread n w) w, sub_self, norm_zero]
  linarith

end

end OperatorSplitting.TotalVariation
