import Mathlib
import OperatorSplitting.Proofs.Exact.Scalar

/-!
# Accelerated gradient steps

A map `S` with transpose `T`, where `‖T w‖² ≤ 4 ‖w‖²`, is given, and half the squared distance of
`T w` from a point `y` is to be made small over a convex set.  The gradient at `w` is
`-S (y - T w)`, so a step goes from `v` to `v + S (y - T v) / 4` and is then projected.  All that is
used of the projection `p` is its variational inequality.

A step makes the energy small compared with every point of the set (`energy_sub_le`).  Acceleration
takes steps from extrapolated points: with momentum `t` the step from `v` after the point `w` leaves
`(t² - t) (E w - E w*) + 2 ‖t v - (t - 1) w - w*‖²` no larger than it was (`potential_step_le`).  The
momentum grows by one half at least each time (`add_half_le_nextMomentum`), and so the energy falls
with the square of the number of steps.
-/

namespace OperatorSplitting

namespace AcceleratedGradient

open RealArithmetic

noncomputable section

variable {E F : Type*} [NormedAddCommGroup E] [InnerProductSpace ℝ E] [NormedAddCommGroup F]
  [InnerProductSpace ℝ F]

/-- A map and its transpose, neither of which stretches more than by two. -/
structure IsTranspose (S : E →ₗ[ℝ] F) (T : F →ₗ[ℝ] E) : Prop where
  inner_map : ∀ x w, inner ℝ (S x) w = inner ℝ x (T w)
  normSqr_le : ∀ w, ‖T w‖ ^ 2 ≤ 4 * ‖w‖ ^ 2

/-- Half the squared distance of the image from `y`. -/
def energy (T : F →ₗ[ℝ] E) (y : E) (w : F) : ℝ := half * ‖y - T w‖ ^ 2

variable {S : E →ₗ[ℝ] F} {T : F →ₗ[ℝ] E} {y : E} {v w p z : F}

/-! ### One step -/

/-- The energy at `z`, expanded at `v`. -/
theorem IsTranspose.energy_eq (h : IsTranspose S T) (v z : F) :
    energy T y z = energy T y v - inner ℝ (S (y - T v)) (z - v) + ‖T (z - v)‖ ^ 2 / 2 := by
  have hmove : y - T z = (y - T v) - T (z - v) := by
    rw [map_sub]
    abel
  rw [energy, energy, hmove, norm_sub_sq_real, h.inner_map, half_eq]
  ring

/-- Two squared distances from `v`, the first one weighted with `t - 1`. -/
theorem mul_normSqr_add (t : ℝ) (v w z : F) :
    t * ((t - 1) * ‖v - w‖ ^ 2 + ‖v - z‖ ^ 2) =
      ‖t • v - (t - 1) • w - z‖ ^ 2 + (t - 1) * ‖w - z‖ ^ 2 := by
  have hpoint : t • v - (t - 1) • w - z = (t - 1) • (v - w) + (v - z) := by module
  have hchord : w - z = (v - z) - (v - w) := by abel
  rw [hpoint, hchord, norm_add_sq_real, norm_sub_sq_real (v - z), norm_smul, mul_pow,
    Real.norm_eq_abs, sq_abs, real_inner_smul_left, real_inner_comm (v - w) (v - z)]
  ring

/-- The length of a step. -/
def stepLength : ℝ := half * half

theorem stepLength_eq : stepLength = 1 / 4 := by
  rw [stepLength, half_eq]
  norm_num

/-- The projection of a step from `v`: the angle between what it takes away and
any direction into the set is obtuse. -/
def Obtuse (S : E →ₗ[ℝ] F) (T : F →ₗ[ℝ] E) (y : E) (v p z : F) : Prop :=
  inner ℝ (v + stepLength • S (y - T v) - p) (z - p) ≤ 0

/-- A projected step from `v` makes the energy small compared with every point of the set. -/
theorem IsTranspose.energy_sub_le (h : IsTranspose S T) (hp : Obtuse S T y v p z) :
    energy T y p - energy T y z ≤ 2 * (‖v - z‖ ^ 2 - ‖p - z‖ ^ 2) := by
  have hstep : energy T y p ≤
      energy T y v - inner ℝ (S (y - T v)) (p - v) + 2 * ‖p - v‖ ^ 2 := by
    rw [h.energy_eq v p]
    linarith [h.normSqr_le (p - v)]
  have htangent : energy T y v - inner ℝ (S (y - T v)) (z - v) ≤ energy T y z := by
    rw [h.energy_eq v z]
    linarith [sq_nonneg ‖T (z - v)‖]
  have hturn : inner ℝ (S (y - T v)) (z - p) ≤ 4 * inner ℝ (p - v) (z - p) := by
    have hsplit : v + stepLength • S (y - T v) - p = stepLength • S (y - T v) - (p - v) := by abel
    have hobtuse := hp
    rw [Obtuse, hsplit, inner_sub_left, real_inner_smul_left, stepLength_eq] at hobtuse
    linarith
  have hdirection : inner ℝ (S (y - T v)) (z - p) =
      inner ℝ (S (y - T v)) (z - v) - inner ℝ (S (y - T v)) (p - v) := by
    rw [← inner_sub_right, sub_sub_sub_cancel_right]
  have hlength : ‖v - z‖ ^ 2 = ‖p - v‖ ^ 2 + 2 * inner ℝ (p - v) (z - p) + ‖p - z‖ ^ 2 := by
    rw [norm_sub_rev v z, norm_sub_rev p z, ← norm_add_sq_real]
    congr 2
    abel
  linarith

/-- A projected step from a minimizer stays there. -/
theorem IsTranspose.eq_of_minimal (h : IsTranspose S T) (hp : Obtuse S T y w p w)
    (hmin : energy T y w ≤ energy T y p) : p = w := by
  have hle := h.energy_sub_le hp
  rw [sub_self, norm_zero] at hle
  have hzero : ‖p - w‖ ^ 2 ≤ 0 := by linarith
  exact sub_eq_zero.mp (norm_eq_zero.mp (pow_eq_zero_iff two_ne_zero |>.mp
    (le_antisymm hzero (sq_nonneg _))))

/-! ### The potential -/

/-- The potential of a point `w` and an extrapolation `v` with momentum `t`, compared with `z`. -/
def potential (T : F →ₗ[ℝ] E) (y : E) (z : F) (t : ℝ) (w v : F) : ℝ :=
  (t ^ 2 - t) * (energy T y w - energy T y z) + two * ‖t • v - (t - 1) • w - z‖ ^ 2

/-- An accelerated step does not increase the potential.  The variational inequality is used at the
last point and at the point of comparison, with the weights `t - 1` and one. -/
theorem IsTranspose.potential_step_le (h : IsTranspose S T) {t t' : ℝ} {v' : F} (ht : 1 ≤ t)
    (hw : Obtuse S T y v p w) (hz : Obtuse S T y v p z) (ht' : t' ^ 2 - t' = t ^ 2)
    (hv' : t' • v' = t' • p + (t - 1) • (p - w)) :
    potential T y z t' p v' ≤ potential T y z t w v := by
  have hpoint : t' • v' - (t' - 1) • p - z = t • p - (t - 1) • w - z := by
    rw [hv']
    module
  have hlast := mul_le_mul_of_nonneg_left (h.energy_sub_le hw) (sub_nonneg.mpr ht)
  have hcompared := h.energy_sub_le hz
  have hsum := mul_le_mul_of_nonneg_left (add_le_add hlast hcompared) (zero_le_one.trans ht)
  have hbefore := mul_normSqr_add t v w z
  have hafter := mul_normSqr_add t p w z
  rw [potential, potential, hpoint, ht', two_eq]
  nlinarith

/-! ### The momentum -/

/-- The momentum of the next step. -/
def nextMomentum (t : ℝ) : ℝ := half * (1 + √(1 + (two + two) * t * t))

theorem nextMomentum_eq (t : ℝ) : nextMomentum t = (1 + √(1 + 4 * t ^ 2)) / 2 := by
  have hfour : (two + two : ℝ) * t * t = 4 * t ^ 2 := by
    rw [two_eq]
    ring
  rw [nextMomentum, hfour, half_eq]
  ring

theorem nextMomentum_sq_sub (t : ℝ) : nextMomentum t ^ 2 - nextMomentum t = t ^ 2 := by
  have hsqrt : √(1 + 4 * t ^ 2) ^ 2 = 1 + 4 * t ^ 2 := Real.sq_sqrt (by positivity)
  rw [nextMomentum_eq]
  nlinarith

/-- The momentum grows by one half at least. -/
theorem add_half_le_nextMomentum (t : ℝ) : t + 1 / 2 ≤ nextMomentum t := by
  have hsqrt : 2 * t ≤ √(1 + 4 * t ^ 2) := Real.le_sqrt_of_sq_le (by nlinarith)
  rw [nextMomentum_eq]
  linarith

end

end AcceleratedGradient

end OperatorSplitting
