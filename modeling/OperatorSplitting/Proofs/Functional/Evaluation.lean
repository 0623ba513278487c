import OperatorSplitting.Proofs.Evaluation

/-!
# Functionals do not depend on what happened before

The functionals of the library reach closures only through the operator of a squared loss.  If the
closures of that operator are the ones that their numbers stand for, then values, proximal maps and
gradients are steady.  Of a functional given from outside this has to be known.
-/

namespace OperatorSplitting

open Eval

variable {K R W : Type} [Scalar K R W] {names : Naming K}

namespace SquaredLoss

theorem steady_residual {l : SquaredLoss K R} (h : l.operator.Named names) (x : Signal K) :
    Steady names (l.residual x : Eval K W _) :=
  (LinearOperator.steady_apply h x).bind fun _ _ => .liftExcept _

theorem steady_value [RealArithmetic R] {l : SquaredLoss K R} (h : l.operator.Named names)
    (x : Signal K) :
    Steady names (l.value x : Eval K W _) :=
  (steady_residual h x).map _

theorem steady_grad [RealArithmetic R] {l : SquaredLoss K R} (h : l.operator.Named names)
    (x : Signal K) :
    Steady names (l.grad x : Eval K W _) :=
  (steady_residual h x).bind fun r _ => (LinearOperator.steady_adjoint h r).map _

end SquaredLoss

theorem Denoiser.steady_denoise [RealArithmetic W] [Widening R W] (d : Denoiser W) (x : Signal K)
    (sigma : W) :
    Steady names (d.denoise x sigma : Eval K W _) := by
  refine (Steady.liftExcept _).bind fun prepared _ => ?_
  obtain ⟨backend, image, dims⟩ := prepared
  refine (Steady.report _).bind fun _ _ => (Steady.liftExcept _).bind fun result _ => ?_
  split
  · exact .throw _
  · exact .liftExcept _

/-- The functions of a functional given from outside are steady. -/
structure ExternalFunctional.Steady (names : Naming K) (e : ExternalFunctional K R W) : Prop where
  value : ∀ x, Eval.Steady names (e.value x)
  prox : ∀ v step, Eval.Steady names (e.prox v step)
  grad : ∀ x, Eval.Steady names (e.grad x)
  squaredLoss : ∀ l, e.squaredLoss? = some l → l.operator.Named names

namespace Functional

/-- All closures that the functional uses are the ones that their numbers stand for. -/
def Named (names : Naming K) : Functional K R W → Prop
  | .loss l => l.operator.Named names
  | .external e => e.Steady names
  | .multiple _ f => f.Named names
  | _ => True

variable [RealArithmetic R] {f : Functional K R W}

theorem steady_value (h : f.Named names) (x : Signal K) :
    Steady names (f.value x : Eval K W _) := by
  induction f with
  | zero => exact .pure _
  | l1 => exact .pure _
  | l21 axis => exact .liftExcept _
  | squaredL2 => exact .pure _
  | nonNegative => exact .liftExcept _
  | prior d => exact .throw _
  | loss l => exact SquaredLoss.steady_value h x
  | external e => exact h.value x
  | multiple s f ih => exact (ih h).map _

theorem steady_prox [RealArithmetic W] [Widening R W] (h : f.Named names) (v : Signal K) (step : R) :
    Steady names (f.prox v step : Eval K W _) := by
  induction f generalizing step with
  | zero => exact .pure _
  | l1 => exact .pure _
  | l21 axis => exact .liftExcept _
  | squaredL2 => exact .pure _
  | nonNegative => exact .liftExcept _
  | prior d => exact d.steady_denoise v _
  | loss l => exact .liftExcept _
  | external e => exact h.prox v step
  | multiple s f ih => exact ih h (s * step)

theorem steady_grad (h : f.Named names) (x : Signal K) :
    Steady names (f.grad x : Eval K W _) := by
  induction f with
  | zero => exact .pure _
  | l1 => exact .throw _
  | l21 axis => exact .throw _
  | squaredL2 => exact .pure _
  | nonNegative => exact .throw _
  | prior d => exact .throw _
  | loss l => exact SquaredLoss.steady_grad h x
  | external e => exact h.grad x
  | multiple s f ih => exact (ih h).map _

theorem outcome_value_multiple (h : f.Named names) (s : R) (x : Signal K) :
    ((multiple s f).value x : Eval K W R).outcome =
      (f.value x : Eval K W R).outcome.map (s * ·) :=
  (steady_value h x).outcome_map _

theorem outcome_grad_multiple (h : f.Named names) (s : R) (x : Signal K) :
    ((multiple s f).grad x : Eval K W _).outcome =
      (f.grad x : Eval K W _).outcome.map (·.scaled (Scalar.ofReal s)) :=
  (steady_grad h x).outcome_map _

/-- A functional that is recognized as a squared loss has the closures of the loss. -/
theorem named_asSquaredLoss? (h : f.Named names) {l : SquaredLoss K R}
    (hl : f.asSquaredLoss? = some l) : l.operator.Named names := by
  induction f generalizing l with
  | loss l' =>
    cases hl
    exact h
  | external e => exact h.squaredLoss l hl
  | multiple s f ih =>
    obtain ⟨l', hl', rfl⟩ := Option.map_eq_some_iff.mp hl
    have hoperator : l'.operator.Named names := ih h hl'
    exact hoperator
  | _ => cases hl

end Functional

end OperatorSplitting
