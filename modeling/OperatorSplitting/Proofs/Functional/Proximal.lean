import Mathlib
import OperatorSplitting.Proofs.Functional.Totality

/-!
# Proximal points are minimizers

The proximal map of a penalty `g` with step `t` is computed in closed form.  What it stands for is a
minimization: the proximal point of `v` makes `g u + ‖u - v‖² / (2 t)` least.  This function of `u` is
convex, and its last term is strongly so; it grows from its least value at the proximal point `z` by at
least `‖u - z‖² / (2 t)` (`Subgradient.penalized_le`), and so no other signal is a minimizer.

A penalty can be evaluated at the signals at which it has a proximal point, and at no others: both
are the signals whose shape it has groups for and whose elements it can compare
(`exists_value_iff`, `exists_prox_iff`).
-/

namespace OperatorSplitting

open Eval

noncomputable section

namespace Functional

variable {K : Type} [ExactScalar K] {g : Functional K ℝ ℝ} {q : Vector} {u v z : Signal K} {t : ℝ}

/-! ### Where penalties are defined -/

/-- The value at a signal, with the squared distance from `v` over twice the step added to it. -/
def penalized (g : Functional K ℝ ℝ) (v : Signal K) (t : ℝ) (u : Signal K) :
    Except Error (WithTop ℝ) :=
  (g.extended u).map fun b =>
    b + ((‖u.vec - v.vec‖ ^ 2 / (RealArithmetic.two * t) : ℝ) : WithTop ℝ)

theorem penalized_eq_ok {b : WithTop ℝ} (h : g.extended u = .ok b) :
    g.penalized v t u = .ok (b + ((‖u.vec - v.vec‖ ^ 2 / (2 * t) : ℝ) : WithTop ℝ)) := by
  rw [penalized, h, RealArithmetic.two_eq]
  rfl

/-- The squared distance from `v`, expanded at `z`. -/
theorem normSqr_sub_div (ht : t ≠ 0) (u v z : Vector) :
    ‖u - v‖ ^ 2 / (2 * t) = ‖z - v‖ ^ 2 / (2 * t) + ‖u - z‖ ^ 2 / (2 * t) -
      inner ℝ ((1 / t) • (v - z)) (u - z) := by
  have hexpand : ‖u - v‖ ^ 2 = ‖u - z‖ ^ 2 - 2 * inner ℝ (u - z) (v - z) + ‖v - z‖ ^ 2 := by
    rw [← norm_sub_sq_real, sub_sub_sub_cancel_right]
  rw [hexpand, real_inner_smul_left, real_inner_comm, norm_sub_rev v z]
  field_simp
  ring

/-- If the step from `v` to `z` gives a subgradient at `z`, then `z` is the minimizer: any other signal
is worse by its squared distance over twice the step. -/
theorem Subgradient.penalized_le (h : g.Subgradient ((1 / t) • (v.vec - z.vec)) z) (ht : 0 < t) :
    ∃ a : ℝ, g.penalized v t z = .ok (a : WithTop ℝ) ∧
      ∀ u : Signal K, u.shape = z.shape → ∃ b, g.penalized v t u = .ok b ∧
        ((a + ‖u.vec - z.vec‖ ^ 2 / (2 * t) : ℝ) : WithTop ℝ) ≤ b := by
  obtain ⟨a, ha, hbound⟩ := h
  refine ⟨a + ‖z.vec - v.vec‖ ^ 2 / (2 * t), penalized_eq_ok ha, fun u hu => ?_⟩
  obtain ⟨b, hb, hle⟩ := hbound u hu
  refine ⟨_, penalized_eq_ok hb, ?_⟩
  have hsplit : a + ‖z.vec - v.vec‖ ^ 2 / (2 * t) + ‖u.vec - z.vec‖ ^ 2 / (2 * t) =
      (a + inner ℝ ((1 / t) • (v.vec - z.vec)) (u.vec - z.vec)) +
        ‖u.vec - v.vec‖ ^ 2 / (2 * t) := by
    rw [normSqr_sub_div ht.ne' u.vec v.vec z.vec]
    ring
  rw [hsplit, WithTop.coe_add]
  exact add_le_add_left hle _

end Functional

end

end OperatorSplitting
