import OperatorSplitting.Functional.Basic

/-!
# The problem of the x-update

The x-update minimizes `f x + Σ (ρ / 2) ‖C x - z + u‖²` over `x`, for the current `z` and `u` of
every coupling.
-/

namespace OperatorSplitting

open RealArithmetic Scalar

/-- An operator `C` with its weight, and the split variable and the scaled dual variable that belong
to it. -/
structure Coupling (K R : Type) where
  operator : LinearOperator K
  weight : R
  z : Signal K
  u : Signal K

/-- The smooth functional and the couplings. -/
structure XUpdate (K R W : Type) where
  f : Functional K R W
  couplings : List (Coupling K R)

variable {K R W : Type} [RealArithmetic R] [RealArithmetic W] [Widening R W] [Scalar K R W]

/-- The vector `C x - z + u`. -/
def Coupling.mismatch (c : Coupling K R) (x : Signal K) : Eval K W (Signal K) := do
  let image ← c.operator.apply x
  let r ← image.sub c.z
  r.add c.u

namespace XUpdate

/-- Add the penalties of some couplings to a sum. -/
def addPenalties (x : Signal K) : List (Coupling K R) → R → Eval K W R
  | [], total => return total
  | c :: cs, total => do
    let r ← c.mismatch x
    addPenalties x cs (total + c.weight * r.normSqr / (1 + 1))

/-- The objective of the x-update. -/
def objective (p : XUpdate K R W) (x : Signal K) : Eval K W R := do
  addPenalties x p.couplings (← p.f.value x)

/-- Add the gradients of the penalties of some couplings to a sum. -/
def addGradients (x : Signal K) : List (Coupling K R) → Signal K → Eval K W (Signal K)
  | [], g => return g
  | c :: cs, g => do
    let r ← c.mismatch x
    let back ← c.operator.adjoint r
    let g ← g.addScaled (ofReal c.weight) back
    addGradients x cs g

/-- The gradient of the objective. -/
def gradient (p : XUpdate K R W) (x : Signal K) : Eval K W (Signal K) := do
  addGradients x p.couplings (← p.f.grad x)

end XUpdate

end OperatorSplitting
