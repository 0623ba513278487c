import OperatorSplitting.Linear.Operator

/-!
# Checking an adjoint

An operator and a candidate for its adjoint are compared on two random signals: the inner product of
`y` with `A x` should be the inner product of the candidate at `y` with `x`.  The difference is
reported relative to the larger of both moduli.
-/

namespace OperatorSplitting.LinearOperator

open RealArithmetic Scalar Widening

variable {K R W : Type} [RealArithmetic R] [RealArithmetic W] [Widening R W] [Scalar K R W]

/-- The relative difference of both inner products at given signals. -/
def adjointErrorAt (a candidate : LinearOperator K) (x y : Signal K) : Eval K W W := do
  let ax ← a.apply x
  let lhs ← y.vdot ax
  let ay ← candidate.apply y
  let rhs ← ay.vdot x
  let scale := widen (RealArithmetic.max (modulus lhs) (modulus rhs))
  if RealArithmetic.beq scale 0 then return 0
  else return widen (modulus (lhs - rhs)) / scale

/-- The relative difference at signals drawn from a stream of standard normal numbers. -/
def adjointError (a candidate : LinearOperator K) (source : Nat → W) : Eval K W W :=
  if candidate.input ≠ a.output then
    throw (.shapeMismatch "adjoint check" a.output candidate.input)
  else if candidate.output ≠ a.input then
    throw (.shapeMismatch "adjoint check" a.input candidate.output)
  else do
    let x : Signal K × Nat ← Signal.draw source a.input 0
    let y : Signal K × Nat ← Signal.draw source a.output x.2
    a.adjointErrorAt candidate x.1 y.1

/-- Whether the relative difference is within a tolerance. -/
def isValidAdjoint (a candidate : LinearOperator K) (rtol : W) (source : Nat → W) :
    Eval K W Bool := do
  return le (← a.adjointError candidate source) rtol

end OperatorSplitting.LinearOperator
