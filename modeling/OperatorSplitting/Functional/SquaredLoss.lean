import OperatorSplitting.Linear.Operator

/-!
# Least squares

The loss `scale * ‖A x - y‖²`, with scale one half at first.  Its gradient uses the adjoint of `A`.
It has a proximal map as soon as `A` is known to multiply elementwise.
-/

namespace OperatorSplitting

open RealArithmetic Scalar

/-- A squared distance between the image of an operator and an observation, with the factors of the
operator if it multiplies elementwise. -/
structure SquaredLoss (K R : Type) where
  observation : Signal K
  operator : LinearOperator K
  scale : R
  diagonal? : Option (Signal K)

namespace SquaredLoss

variable {K R W : Type} [RealArithmetic R] [Scalar K R W]

/-- The loss of an operator and an observation of its output shape. -/
def ofObservation (y : Signal K) (a : LinearOperator K) : Except Error (SquaredLoss K R) :=
  if y.shape = a.output then a.diagonalEntries?.map fun d => ⟨y, a, half, d⟩
  else .error (.shapeMismatch "squared l2 loss observation" a.output y.shape)

/-- The same loss with its scale multiplied. -/
def rescaled (l : SquaredLoss K R) (s : R) : SquaredLoss K R := { l with scale := l.scale * s }

/-- Multiply the scale by a positive number. -/
def scaledBy (l : SquaredLoss K R) (s : R) : Except Error (SquaredLoss K R) :=
  if lt 0 s then .ok (l.rescaled s)
  else .error (.configuration (.lossScale (NumberText.plain s)))

/-- The image of a signal minus the observation. -/
def residual (l : SquaredLoss K R) (x : Signal K) : Eval K W (Signal K) := do
  (← l.operator.apply x).sub l.observation

/-- The value of the loss. -/
def value (l : SquaredLoss K R) (x : Signal K) : Eval K W R := do
  return l.scale * (← l.residual x).normSqr

/-- The gradient of the loss. -/
def grad (l : SquaredLoss K R) (x : Signal K) : Eval K W (Signal K) := do
  let g ← l.operator.adjoint (← l.residual x)
  return g.scaled (ofReal (l.scale + l.scale))

/-- The proximal map for an elementwise operator with factors `d`: a weighted mean of `v` and the
observation. -/
def proxDiagonal (l : SquaredLoss K R) (d v : Signal K) (step : R) : Except Error (Signal K) := do
  let c := l.scale * step
  let c2 := c + c
  let pull ← Signal.zipMap "squared l2 loss prox" (fun di yi => conj di * yi * ofReal c2) d
    l.observation
  let numerator ← v.add pull
  let denominator := d.map fun di => (ofReal ((1 : R) + c2 * modulusSqr di) : K)
  Signal.zipMap "squared l2 loss prox" (· / ·) numerator denominator

/-- The proximal map. -/
def prox (l : SquaredLoss K R) (v : Signal K) (step : R) : Except Error (Signal K) :=
  match l.diagonal? with
  | some d => l.proxDiagonal d v step
  | none => .error (.unsupported (.elementwiseProx l.operator.text))

end SquaredLoss

end OperatorSplitting
