import Mathlib
import OperatorSplitting.Proofs.Functional.Norms
import OperatorSplitting.Proofs.Linear.InnerProduct

/-!
# The gradient of least squares

A squared loss with a positive scale lies above its tangents: the gradient that is computed with the
adjoint of the operator is a subgradient.  The loss has a value wherever its gradient has one, and
then at all signals of that shape.
-/

namespace OperatorSplitting

open Eval

noncomputable section

namespace SquaredLoss

variable {K : Type} [ExactScalar K] {names : Naming K}

/-- A loss as the constructors make it: the observation has the output shape of a linear operator,
and the scale is positive. -/
structure IsLinear (names : Naming K) (l : SquaredLoss K ℝ) : Prop where
  operator : l.operator.IsLinear names
  observation : l.observation.shape = l.operator.output
  scale : 0 < l.scale

theorem isLinear_of_ofObservation {y : Signal K} {a : LinearOperator K} {l : SquaredLoss K ℝ}
    (ha : a.IsLinear names) (h : ofObservation y a = .ok l) : l.IsLinear names := by
  unfold ofObservation at h
  split at h
  · next hshape =>
    obtain ⟨d, -, rfl⟩ := Except.map_eq_ok_iff.mp h
    refine ⟨ha, hshape, ?_⟩
    show (0 : ℝ) < 1 / (1 + 1)
    norm_num
  · cases h

theorem isLinear_of_scaledBy {l l' : SquaredLoss K ℝ} {s : ℝ} (hl : l.IsLinear names)
    (h : l.scaledBy s = .ok l') : l'.IsLinear names := by
  unfold scaledBy at h
  split at h
  · next hs =>
    cases h
    have hpos : 0 < s := by simpa [RealArithmetic.lt] using hs
    exact ⟨hl.operator, hl.observation, mul_pos hl.scale hpos⟩
  · cases h

variable {l : SquaredLoss K ℝ} {x r g : Signal K}

/-- A residual is the image of the signal minus the observation. -/
theorem outcome_residual_eq_ok_iff (hl : l.operator.Named names) :
    (l.residual x : Eval K ℝ _).outcome = .ok r ↔
      ∃ u, (l.operator.apply x : Eval K ℝ _).outcome = .ok u ∧ u.sub l.observation = .ok r := by
  rw [residual, (LinearOperator.steady_apply hl x).outcome_bind fun _ _ => .liftExcept _,
    Except.bind_eq_ok_iff]
  rfl

theorem outcome_value (hl : l.operator.Named names) (x : Signal K) :
    (l.value x : Eval K ℝ ℝ).outcome =
      (l.residual x : Eval K ℝ _).outcome.map fun r => l.scale * r.normSqr :=
  (steady_residual hl x).outcome_map _

theorem outcome_grad_eq_ok_iff (hl : l.operator.Named names) :
    (l.grad x : Eval K ℝ _).outcome = .ok g ↔
      ∃ r v, (l.residual x : Eval K ℝ _).outcome = .ok r ∧
        (l.operator.adjoint r : Eval K ℝ _).outcome = .ok v ∧
        g = v.scaled (Scalar.ofReal (l.scale + l.scale)) := by
  rw [grad, (steady_residual hl x).outcome_bind
    fun r _ => (LinearOperator.steady_adjoint hl r).map _, Except.bind_eq_ok_iff]
  constructor
  · rintro ⟨r, hr, h⟩
    rw [(LinearOperator.steady_adjoint hl r).outcome_map, Except.map_eq_ok_iff] at h
    obtain ⟨v, hv, rfl⟩ := h
    exact ⟨r, v, hr, hv, rfl⟩
  · rintro ⟨r, v, hr, hv, rfl⟩
    refine ⟨r, hr, ?_⟩
    rw [(LinearOperator.steady_adjoint hl r).outcome_map, hv]
    rfl

/-- The loss has a residual at every signal of a shape, or at none. -/
theorem residual_uniform (hl : l.IsLinear names) {x' : Signal K}
    (hr : (l.residual x : Eval K ℝ _).outcome = .ok r) (hshape : x'.shape = x.shape) :
    ∃ r', (l.residual x' : Eval K ℝ _).outcome = .ok r' := by
  obtain ⟨u, hu, -⟩ := (outcome_residual_eq_ok_iff hl.operator.named).mp hr
  obtain ⟨u', hu'⟩ := hl.operator.apply_uniform hu hshape
  have hu'shape := (hl.operator.shape_apply hu').2
  obtain ⟨r', hr', -⟩ := Signal.exists_sub (hu'shape.trans hl.observation.symm)
  exact ⟨r', (outcome_residual_eq_ok_iff hl.operator.named).mpr ⟨u', hu', hr'⟩⟩

/-- The gradient of the loss is a subgradient. -/
theorem subgradient_grad (hl : l.IsLinear names)
    (hg : (l.grad x : Eval K ℝ _).outcome = .ok g) :
    g.shape = x.shape ∧ (Functional.loss l : Functional K ℝ ℝ).Subgradient g.vec x := by
  have hnamed := hl.operator.named
  obtain ⟨r, v, hr, hv, rfl⟩ := (outcome_grad_eq_ok_iff hnamed).mp hg
  obtain ⟨u, hu, hur⟩ := (outcome_residual_eq_ok_iff hnamed).mp hr
  have hxshape := (hl.operator.shape_apply hu).1
  refine ⟨(Signal.shape_scaled _ _).trans
    ((hl.operator.shape_adjoint hv).2.trans hxshape.symm), ?_⟩
  have hvalue {x r : Signal K} (hr : (l.residual x : Eval K ℝ _).outcome = .ok r) :
      ((Functional.loss l : Functional K ℝ ℝ).value x : Eval K ℝ ℝ).outcome =
        .ok (l.scale * r.normSqr) := by
    show (l.value x : Eval K ℝ ℝ).outcome = _
    rw [outcome_value hnamed, hr]
    rfl
  refine Functional.subgradient_of_value (hvalue hr) trivial fun p hp => ?_
  obtain ⟨r', hr'⟩ := residual_uniform hl hr hp
  refine ⟨_, hvalue hr', fun _ => ?_⟩
  obtain ⟨u', hu', hur'⟩ := (outcome_residual_eq_ok_iff hnamed).mp hr'
  -- Residuals differ as images do, so the tangent of the squared norm is pulled back.
  have hdiff : r'.vec - r.vec = u'.vec - u.vec := by
    rw [Signal.vec_sub hur, Signal.vec_sub hur', sub_sub_sub_cancel_right]
  have htangent := SquaredL2.tangent_le r.vec r'.vec
  rw [hdiff, real_inner_smul_left, hl.operator.inner_adjoint_sub hu hu' hv] at htangent
  rw [Signal.normSqr_eq, Signal.normSqr_eq, Signal.vec_scaled, real_inner_smul_left]
  have hscaled := mul_le_mul_of_nonneg_left htangent hl.scale.le
  linarith

end SquaredLoss

end

end OperatorSplitting
