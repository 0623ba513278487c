import OperatorSplitting.Functional.Denoiser
import OperatorSplitting.Functional.SquaredLoss
import OperatorSplitting.Functional.Norms

/-!
# Functionals

A functional assigns a number to a signal.  A smooth one has a gradient, a penalty has a proximal
map, and a denoiser may stand in for the proximal map of a functional that cannot be evaluated.  A
positive multiple of a functional is a functional, and a multiple of a squared loss is still
recognized as a squared loss.  A functional may also be given from outside, by its functions and by
what it says about itself.
-/

namespace OperatorSplitting

open RealArithmetic Scalar Widening

/-- A functional given from outside. -/
structure ExternalFunctional (K R W : Type) where
  name : String
  isSmooth : Bool
  hasEval : Bool
  hasProx : Bool
  squaredLoss? : Option (SquaredLoss K R)
  value : Signal K → Eval K W R
  prox : Signal K → R → Eval K W (Signal K)
  grad : Signal K → Eval K W (Signal K)

/-- A functional. -/
inductive Functional (K R W : Type) where
  | zero
  | l1
  | l21 (axis : Nat)
  | squaredL2
  | nonNegative
  | prior (denoiser : Denoiser W)
  | loss (l : SquaredLoss K R)
  | external (e : ExternalFunctional K R W)
  | multiple (s : R) (f : Functional K R W)

namespace Functional

variable {K R W : Type}

/-- Whether the functional has a gradient. -/
def isSmooth : Functional K R W → Bool
  | .zero | .squaredL2 | .loss _ => true
  | .l1 | .l21 _ | .nonNegative | .prior _ => false
  | .external e => e.isSmooth
  | .multiple _ f => f.isSmooth

/-- Whether the functional has values. -/
def hasEval : Functional K R W → Bool
  | .prior _ => false
  | .external e => e.hasEval
  | .multiple _ f => f.hasEval
  | _ => true

/-- Whether the functional has a proximal map. -/
def hasProx : Functional K R W → Bool
  | .loss l => l.diagonal?.isSome
  | .external e => e.hasProx
  | .multiple _ f => f.hasProx
  | _ => true

section

variable [RealArithmetic R]

/-- The name in messages. -/
def name : Functional K R W → String
  | .zero => "ZeroFunctional"
  | .l1 => "L1Norm"
  | .l21 _ => "L21Norm"
  | .squaredL2 => "SquaredL2Norm"
  | .nonNegative => "NonNegativeIndicator"
  | .prior d => d.name ++ " prior"
  | .loss _ => "SquaredL2Loss"
  | .external e => e.name
  | .multiple s f => NumberText.plain s ++ " * " ++ f.name

/-- A positive multiple. -/
def scaled (s : R) (f : Functional K R W) : Except Error (Functional K R W) :=
  if isPositive s then .ok (.multiple s f)
  else .error (.configuration (.functionalScale (NumberText.plain s)))

/-- The functional as a squared loss, with the multiples taken into its scale. -/
def asSquaredLoss? [Scalar K R W] : Functional K R W → Option (SquaredLoss K R)
  | .loss l => some l
  | .external e => e.squaredLoss?
  | .multiple s f => f.asSquaredLoss?.map (·.rescaled s)
  | _ => none

variable [RealArithmetic W] [Widening R W] [Scalar K R W]

/-- The value at a signal. -/
def value : Functional K R W → Signal K → Eval K W R
  | .zero, _ => return 0
  | .l1, x => return L1.value x
  | .l21 axis, x => L21.value axis x
  | .squaredL2, x => return SquaredL2.value x
  | .nonNegative, x => NonNegative.value x
  | .prior d, _ => throw (.unsupported (.evaluation (d.name ++ " prior")))
  | .loss l, x => l.value x
  | .external e, x => e.value x
  | .multiple s f, x => do return s * (← f.value x)

/-- The proximal map with a step, at a signal. -/
def prox : Functional K R W → Signal K → R → Eval K W (Signal K)
  | .zero, v, _ => return v
  | .l1, v, step => return L1.prox v step
  | .l21 axis, v, step => L21.prox axis v step
  | .squaredL2, v, step => return SquaredL2.prox v step
  | .nonNegative, v, _ => NonNegative.prox v
  | .prior d, v, step => d.denoise v (widen step)
  | .loss l, v, step => l.prox v step
  | .external e, v, step => e.prox v step
  | .multiple s f, v, step => f.prox v (s * step)

/-- The gradient at a signal. -/
def grad : Functional K R W → Signal K → Eval K W (Signal K)
  | .zero, x => return .zeros x.shape
  | .squaredL2, x => return SquaredL2.grad x
  | .loss l, x => l.grad x
  | .external e, x => e.grad x
  | .multiple s f, x => do return (← f.grad x).scaled (ofReal s)
  | f@(.l1), _ | f@(.l21 _), _ | f@(.nonNegative), _ | f@(.prior _), _ =>
    throw (.unsupported (.gradient f.name))

end

end Functional

end OperatorSplitting
