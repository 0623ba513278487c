import OperatorSplitting.Linear.Operator

/-!
# Conjugate gradients

The method of conjugate gradients for `A x = b` with a Hermitian positive-definite operator.  It
stops when the norm of the residual is at most the larger of a relative and an absolute tolerance,
or when its iterations are used up, and it gives up on a direction of non-positive curvature.
-/

namespace OperatorSplitting

open RealArithmetic Scalar Widening

/-- The tolerances and the number of iterations of a linear solve. -/
structure CgOptions (W : Type) where
  tol : W
  atol : W
  maxIter : Nat

/-- A relative tolerance of `10 ^ -4` and a hundred iterations. -/
def CgOptions.default {W : Type} [RealArithmetic W] : CgOptions W :=
  ⟨1 / ofNat 10000, 0, 100⟩

/-- How a linear solve ended. -/
structure CgReport (W : Type) where
  iterations : Nat
  residual : W
  converged : Bool

/-- The iterate, its residual and the squared norm of that, the search direction, and the number of
iterations so far. -/
structure CgState (K R : Type) where
  x : Signal K
  residual : Signal K
  direction : Signal K
  residualSqr : R
  iteration : Nat

namespace CgState

variable {K R W : Type} [RealArithmetic R] [RealArithmetic W] [Widening R W] [Scalar K R W]

/-- The state at a starting point. -/
def start (a : LinearOperator K) (b x : Signal K) : Eval K W (CgState K R) := do
  let residual ← b.sub (← a.apply x)
  return ⟨x, residual, residual, residual.normSqr, 0⟩

/-- One iteration: go along the direction to the minimum, then turn the direction. -/
def step (a : LinearOperator K) (s : CgState K R) : Eval K W (CgState K R) := do
  let image ← a.apply s.direction
  let curvature := re (← s.direction.vdot image)
  if !(lt 0 curvature) || !(RealArithmetic.isFinite curvature) then
    throw (.numerical (.curvature (NumberText.plain curvature) s.iteration))
  let alpha : K := ofReal (s.residualSqr / curvature)
  let x ← s.x.addScaled alpha s.direction
  let residual ← s.residual.addScaled (-alpha) image
  let residualSqr := residual.normSqr
  let beta : K := ofReal (residualSqr / s.residualSqr)
  let direction ← residual.add (s.direction.scaled beta)
  return ⟨x, residual, direction, residualSqr, s.iteration + 1⟩

/-- The norm of the residual. -/
def residualNorm (s : CgState K R) : W := widen (sqrt s.residualSqr)

/-- Iterate while the residual is above the threshold, at most the given number of times. -/
def iterate (a : LinearOperator K) (threshold : W) : Nat → CgState K R → Eval K W (CgState K R)
  | 0, s => return s
  | n + 1, s =>
    if lt threshold s.residualNorm then do
      let s ← s.step a
      iterate a threshold n s
    else return s

end CgState

variable {K R W : Type} [RealArithmetic R] [RealArithmetic W] [Widening R W] [Scalar K R W]

/-- The norm of the residual at which a solve for the right-hand side `b` stops. -/
def CgOptions.threshold (options : CgOptions W) (b : Signal K) : W :=
  RealArithmetic.max (options.tol * widen b.norm) options.atol

/-- Solve `a x = b` from the starting point `x`. -/
def conjugateGradient (a : LinearOperator K) (b x : Signal K) (options : CgOptions W) :
    Eval K W (Signal K × CgReport W) :=
  if a.input ≠ a.output then
    throw (.shapeMismatch "conjugate gradient operator" a.input a.output)
  else if b.shape ≠ a.output then
    throw (.shapeMismatch "conjugate gradient right-hand side" a.output b.shape)
  else do
    let threshold := options.threshold b
    let s ← CgState.start a b x
    let s ← s.iterate a threshold options.maxIter
    return (s.x, ⟨s.iteration, s.residualNorm, le s.residualNorm threshold⟩)

end OperatorSplitting
