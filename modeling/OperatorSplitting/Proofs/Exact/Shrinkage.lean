import Mathlib
import OperatorSplitting.Proofs.Exact.Vector

/-!
# Shrinking vectors

Shrinking by `t` shortens a vector by `t`, or sends it to zero if it is not longer than that.  The
shrunk vector `z` minimizes `‖u - v‖² / 2 + t ‖u‖`, which is what `shrinkage_spec` says: `v - z` is a
subgradient of `t ‖·‖` at `z`.  The inequality is used for single elements and for groups of them.
-/

namespace OperatorSplitting

noncomputable section

section Shrinkage

variable {E : Type*} [NormedAddCommGroup E] [InnerProductSpace ℝ E]

open Classical in
/-- Shorten a vector by `t`. -/
def shrinkage (t : ℝ) (v : E) : E := if ‖v‖ ≤ t then 0 else ((‖v‖ - t) / ‖v‖) • v

theorem shrinkage_zero {t : ℝ} (ht : 0 ≤ t) : shrinkage t (0 : E) = 0 := by
  rw [shrinkage, if_pos (by rwa [norm_zero])]

/-- The difference to the shrunk vector is a subgradient of `t ‖·‖`. -/
theorem shrinkage_spec {t : ℝ} (ht : 0 ≤ t) (v p : E) :
    t * ‖shrinkage t v‖ + inner ℝ (v - shrinkage t v) (p - shrinkage t v) ≤ t * ‖p‖ := by
  unfold shrinkage
  by_cases hv : ‖v‖ ≤ t
  · -- The vector becomes zero, and `⟪v, p⟫ ≤ ‖v‖ ‖p‖`.
    rw [if_pos hv, norm_zero, mul_zero, zero_add, sub_zero, sub_zero]
    calc inner ℝ v p ≤ ‖v‖ * ‖p‖ := real_inner_le_norm v p
      _ ≤ t * ‖p‖ := mul_le_mul_of_nonneg_right hv (norm_nonneg p)
  · -- The difference is `t` times the unit vector `v / ‖v‖`.
    have hpos : 0 < ‖v‖ := ht.trans_lt (not_le.mp hv)
    have hkeep : 0 ≤ (‖v‖ - t) / ‖v‖ := div_nonneg (by linarith [not_le.mp hv]) hpos.le
    have hdiff : v - ((‖v‖ - t) / ‖v‖) • v = (t / ‖v‖) • v := by
      have hfactor : t / ‖v‖ = 1 - (‖v‖ - t) / ‖v‖ := by field_simp; ring
      rw [hfactor, sub_smul, one_smul]
    have hnorm : ‖((‖v‖ - t) / ‖v‖) • v‖ = ‖v‖ - t := by
      rw [norm_smul, Real.norm_of_nonneg hkeep, div_mul_cancel₀ _ hpos.ne']
    rw [if_neg hv, hdiff, hnorm, inner_sub_right, real_inner_smul_left, real_inner_smul_left,
      real_inner_smul_right, real_inner_self_eq_norm_sq]
    have hcauchy : t / ‖v‖ * inner ℝ v p ≤ t * ‖p‖ := by
      calc t / ‖v‖ * inner ℝ v p ≤ t / ‖v‖ * (‖v‖ * ‖p‖) :=
            mul_le_mul_of_nonneg_left (real_inner_le_norm v p) (by positivity)
        _ = t * ‖p‖ := by field_simp
    have hself : t / ‖v‖ * ((‖v‖ - t) / ‖v‖ * ‖v‖ ^ 2) = t * (‖v‖ - t) := by field_simp
    linarith

end Shrinkage

/-- Shrinking a group of complex numbers as one vector, written with sums over its members. -/
theorem group_shrinkage_spec {t : ℝ} (ht : 0 ≤ t) (n : ℕ) (v z p : ℕ → ℂ)
    (hz : ∀ j < n, z j =
      if √(∑ i ∈ Finset.range n, ‖v i‖ ^ 2) ≤ t then 0
      else (((√(∑ i ∈ Finset.range n, ‖v i‖ ^ 2) - t) / √(∑ i ∈ Finset.range n, ‖v i‖ ^ 2) : ℝ) : ℂ)
        * v j) :
    t * √(∑ j ∈ Finset.range n, ‖z j‖ ^ 2) +
        ∑ j ∈ Finset.range n, inner ℝ (v j - z j) (p j - z j) ≤
      t * √(∑ j ∈ Finset.range n, ‖p j‖ ^ 2) := by
  let group (x : ℕ → ℂ) : PiLp 2 fun _ : Fin n => ℂ := WithLp.toLp 2 fun j => x j
  have hnorm (x : ℕ → ℂ) : ‖group x‖ = √(∑ j ∈ Finset.range n, ‖x j‖ ^ 2) := by
    rw [PiLp.norm_eq_of_L2, Finset.sum_range]
  have hshrunk : group z = shrinkage t (group v) := by
    apply PiLp.ext
    intro j
    rw [shrinkage, hnorm]
    show z j = _
    rw [hz j j.isLt]
    split
    · rfl
    · rfl
  have hinner : ∑ j ∈ Finset.range n, inner ℝ (v j - z j) (p j - z j) =
      inner ℝ (group v - group z) (group p - group z) := by
    rw [PiLp.inner_apply, Finset.sum_range]
    rfl
  rw [hinner, ← hnorm, ← hnorm, hshrunk]
  exact shrinkage_spec ht _ _

/-! ### Inner products coordinate by coordinate -/

/-- The inner product of vectors, the first of which is zero from the `n`-th coordinate on. -/
theorem inner_eq_sum_range {a b : Vector} {n : ℕ} (h : ∀ k, n ≤ k → a k = 0) :
    inner ℝ a b = ∑ k ∈ Finset.range n, inner ℝ (a k) (b k) := by
  rw [lp.inner_eq_tsum, tsum_eq_sum (s := Finset.range n)]
  intro k hk
  rw [h k (by simpa using hk), inner_zero_left]

namespace Signal

variable {K : Type} [ExactScalar K]

/-- The inner product of two differences of signals. -/
theorem inner_sub_sub {v z p : Signal K} (hz : z.shape = v.shape) :
    inner ℝ (v.vec - z.vec) (p.vec - z.vec) =
      ∑ k ∈ Finset.range v.size,
        inner ℝ (v.coord k - z.coord k) (p.coord k - z.coord k) := by
  rw [inner_eq_sum_range (n := v.size)]
  · rfl
  · intro k hk
    show v.coord k - z.coord k = 0
    rw [coord_of_size_le hk, coord_of_size_le (size_eq_of_shape hz ▸ hk), sub_zero]

end Signal

end

end OperatorSplitting
