import Mathlib
import OperatorSplitting.Proofs.Exact.Shrinkage
import OperatorSplitting.Proofs.Functional.Subgradient

/-!
# Proximal maps of separable penalties

If `z` is the proximal point of `v` with step `t`, then `(v - z) / t` is a subgradient at `z`.  Here
this is shown for the penalties that treat every element by itself: the sum of the moduli, the
squared norm, and the indicator of the signals without elements below zero.
-/

namespace OperatorSplitting

open Eval ExactScalar

noncomputable section

variable {K : Type} [ExactScalar K] {v z x : Signal K} {t : ℝ}

/-- What a proximal point has to satisfy, without division by the step. -/
theorem Functional.subgradient_of_step {g : Functional K ℝ ℝ} (ht : 0 < t) {a : ℝ}
    (hvalue : (g.value z : Eval K ℝ ℝ).outcome = .ok a) (hadmits : g.Admits z)
    (h : ∀ p : Signal K, p.shape = z.shape → ∃ b, (g.value p : Eval K ℝ ℝ).outcome = .ok b ∧
      (g.Admits p → t * a + inner ℝ (v.vec - z.vec) (p.vec - z.vec) ≤ t * b)) :
    g.Subgradient ((1 / t) • (v.vec - z.vec)) z := by
  refine subgradient_of_value hvalue hadmits fun p hp => ?_
  obtain ⟨b, hb, hle⟩ := h p hp
  refine ⟨b, hb, fun hpadmits => ?_⟩
  have hmul := hle hpadmits
  rw [real_inner_smul_left]
  have hcancel : t * (1 / t * inner ℝ (v.vec - z.vec) (p.vec - z.vec)) =
      inner ℝ (v.vec - z.vec) (p.vec - z.vec) := by field_simp
  nlinarith

/-! ### The sum of the moduli -/

theorem L1.value_eq (x : Signal K) :
    L1.value x = ∑ k ∈ Finset.range x.size, ‖x.coord k‖ := by
  rw [L1.value, map_sumEntries (φ := fun r : ℝ => r) rfl (fun _ _ => rfl) Scalar.modulus 0]
  apply Finset.sum_congr rfl
  intro k _
  rw [modulus_eq, Signal.coord]

theorem val_shrink (a : K) (t : ℝ) : val (shrink a t) = shrinkage t (val a) := by
  unfold shrink shrinkage
  simp only [RealArithmetic.le, modulus_eq, decide_eq_true_eq]
  split
  · exact val_zero
  · rw [val_mul, val_ofReal, Complex.real_smul, mul_comm]

theorem L1.coord_prox (ht : 0 ≤ t) (v : Signal K) (k : ℕ) :
    (L1.prox v t).coord k = shrinkage t (v.coord k) :=
  Signal.coord_map (g := shrinkage t) (fun a => val_shrink a t) (shrinkage_zero ht) v k

theorem L1.subgradient_prox (ht : 0 < t) (v : Signal K) :
    (Functional.l1 : Functional K ℝ ℝ).Subgradient ((1 / t) • (v.vec - (L1.prox v t).vec))
      (L1.prox v t) := by
  have hshape : (L1.prox v t).shape = v.shape := Signal.shape_map _ v
  refine Functional.subgradient_of_step ht rfl trivial fun p hp => ⟨_, rfl, fun _ => ?_⟩
  rw [L1.value_eq, L1.value_eq, Signal.size_eq_of_shape hshape,
    Signal.size_eq_of_shape (hp.trans hshape), Signal.inner_sub_sub hshape, Finset.mul_sum,
    Finset.mul_sum, ← Finset.sum_add_distrib]
  apply Finset.sum_le_sum
  intro k _
  rw [L1.coord_prox ht.le]
  exact shrinkage_spec ht.le _ _

/-! ### The squared norm -/

theorem SquaredL2.vec_prox (v : Signal K) (t : ℝ) :
    (SquaredL2.prox v t).vec = (1 / (1 + t + t)) • v.vec := Signal.vec_scaled v _

theorem SquaredL2.vec_grad (x : Signal K) : (SquaredL2.grad x).vec = (2 : ℝ) • x.vec := by
  rw [SquaredL2.grad, Signal.vec_scaled]
  congr 1
  exact one_add_one_eq_two

/-- The squared norm lies above its tangents. -/
theorem SquaredL2.tangent_le (a b : Vector) :
    ‖a‖ ^ 2 + inner ℝ ((2 : ℝ) • a) (b - a) ≤ ‖b‖ ^ 2 := by
  have hexpand : ‖b - a‖ ^ 2 = ‖b‖ ^ 2 - 2 * inner ℝ b a + ‖a‖ ^ 2 := norm_sub_sq_real b a
  rw [real_inner_smul_left, inner_sub_right, real_inner_self_eq_norm_sq, real_inner_comm]
  nlinarith [sq_nonneg ‖b - a‖]

theorem SquaredL2.subgradient_prox (ht : 0 < t) (v : Signal K) :
    (Functional.squaredL2 : Functional K ℝ ℝ).Subgradient
      ((1 / t) • (v.vec - (SquaredL2.prox v t).vec)) (SquaredL2.prox v t) := by
  have hslope : (1 / t) • (v.vec - (SquaredL2.prox v t).vec) =
      (2 : ℝ) • (SquaredL2.prox v t).vec := by
    have hfactor : 1 / t * (1 - 1 / (1 + t + t)) = 2 * (1 / (1 + t + t)) := by
      field_simp
      ring
    rw [SquaredL2.vec_prox, smul_smul, ← hfactor, ← smul_smul, sub_smul, one_smul]
  rw [hslope]
  refine Functional.subgradient_of_value rfl trivial fun p _ => ⟨_, rfl, fun _ => ?_⟩
  rw [SquaredL2.value, SquaredL2.value, Signal.normSqr_eq, Signal.normSqr_eq]
  exact SquaredL2.tangent_le _ _

/-! ### The indicator of signals without elements below zero -/

theorem NonNegative.requireReal_eq_ok_iff :
    NonNegative.requireReal K = .ok () ↔ (Scalar.dtype K).isComplex = false := by
  unfold NonNegative.requireReal
  cases (Scalar.dtype K).isComplex <;> simp

/-- Real signals have a value: zero if the indicator admits the signal, and else infinity. -/
theorem NonNegative.value_eq_ok (hreal : (Scalar.dtype K).isComplex = false) (x : Signal K) :
    NonNegative.value x = .ok (if x.entries.all fun a => RealArithmetic.le 0 (Scalar.re a) then 0
      else RealArithmetic.infinity) := by
  rw [NonNegative.value, NonNegative.requireReal_eq_ok_iff.mpr hreal]
  rfl

theorem NonNegative.value_of_admits (hreal : (Scalar.dtype K).isComplex = false) {x : Signal K}
    (h : (Functional.nonNegative : Functional K ℝ ℝ).Admits x) : NonNegative.value x = .ok 0 := by
  have hall : (x.entries.all fun a => RealArithmetic.le 0 (Scalar.re a)) = true := by
    rw [Array.all_eq_true']
    intro a ha
    exact decide_eq_true (h a ha)
  rw [NonNegative.value_eq_ok hreal, if_pos hall]

/-- The indicator admits the signals whose coordinates are nowhere below zero. -/
theorem NonNegative.admits_iff (x : Signal K) :
    (Functional.nonNegative : Functional K ℝ ℝ).Admits x ↔ ∀ k, 0 ≤ (x.coord k).re := by
  show (∀ a ∈ x.entries, 0 ≤ Scalar.re a) ↔ _
  constructor
  · intro h k
    rcases Nat.lt_or_ge k x.entries.size with hk | hk
    · rw [Signal.coord_eq hk, ← re_eq]
      exact h _ (Array.getElem_mem hk)
    · rw [Signal.coord_of_size_le hk, Complex.zero_re]
  · intro h a ha
    obtain ⟨k, hk, rfl⟩ := Array.mem_iff_getElem.mp ha
    rw [re_eq, ← Signal.coord_eq hk]
    exact h k

theorem Signal.coord_eq_re (hreal : (Scalar.dtype K).isComplex = false) (x : Signal K) (k : ℕ) :
    x.coord k = ((x.coord k).re : ℂ) := val_eq_re hreal _

/-- The nearest number that is not below zero is a projection. -/
theorem mul_max_zero_le (a : ℝ) {b : ℝ} (hb : 0 ≤ b) :
    (a - max a 0) * (b - max a 0) ≤ 0 := by
  rcases le_total 0 a with ha | ha
  · rw [max_eq_left ha, sub_self, zero_mul]
  · rw [max_eq_right ha, sub_zero, sub_zero]
    exact mul_nonpos_of_nonpos_of_nonneg ha hb

theorem NonNegative.subgradient_prox (ht : 0 < t) (h : NonNegative.prox v = .ok z) :
    z.shape = v.shape ∧
      (Functional.nonNegative : Functional K ℝ ℝ).Subgradient ((1 / t) • (v.vec - z.vec)) z := by
  obtain ⟨⟨⟩, hunit, hz⟩ := Except.bind_eq_ok_iff.mp h
  have hreal := NonNegative.requireReal_eq_ok_iff.mp hunit
  obtain rfl : v.map (fun a => Scalar.ofReal (RealArithmetic.max (Scalar.re a) 0)) = z :=
    Except.ok.inj hz
  have hcoord (k : ℕ) : (v.map fun a => (Scalar.ofReal (RealArithmetic.max (Scalar.re a) 0) :
      K)).coord k = ((max (v.coord k).re 0 : ℝ) : ℂ) :=
    Signal.coord_map (g := fun c => ((max c.re 0 : ℝ) : ℂ))
      (fun a => by rw [val_ofReal, re_eq]; rfl) (by simp) v k
  have hshape := Signal.shape_map
    (fun a => (Scalar.ofReal (RealArithmetic.max (Scalar.re a) 0) : K)) v
  have hadmits : (Functional.nonNegative : Functional K ℝ ℝ).Admits (v.map fun a =>
      (Scalar.ofReal (RealArithmetic.max (Scalar.re a) 0) : K)) := by
    rw [NonNegative.admits_iff]
    intro k
    rw [hcoord, Complex.ofReal_re]
    exact le_max_right _ _
  refine ⟨hshape, Functional.subgradient_of_step ht (NonNegative.value_of_admits hreal hadmits)
    hadmits fun p hp => ⟨_, NonNegative.value_eq_ok hreal p, fun hpadmits => ?_⟩⟩
  have hvalue := (NonNegative.value_eq_ok hreal p).symm.trans
    (NonNegative.value_of_admits hreal hpadmits)
  rw [Except.ok.inj hvalue, mul_zero, zero_add, Signal.inner_sub_sub hshape]
  apply Finset.sum_nonpos
  intro k _
  rw [hcoord, v.coord_eq_re hreal k, p.coord_eq_re hreal k, ← Complex.ofReal_sub,
    ← Complex.ofReal_sub, Complex.inner, Complex.conj_ofReal, ← Complex.ofReal_mul,
    Complex.ofReal_re, Complex.ofReal_re, mul_comm]
  exact mul_max_zero_le _ ((NonNegative.admits_iff p).mp hpadmits k)

end

end OperatorSplitting
