import OperatorSplitting.Admm.XUpdate
import OperatorSplitting.ConjugateGradient

/-!
# Strategies for the x-update

Gradient descent needs only the gradient of `f`: it takes steps with a backtracking line search,
whose step size is carried from one solve to the next.  If `f` is a squared loss, the normal
equations can be set up once and solved by conjugate gradients instead.  A strategy may also be given
from outside; whatever it remembers of earlier solves is a function of these.
-/

namespace OperatorSplitting

open RealArithmetic Scalar

/-- The operator of the normal equations and the part of the right-hand side that stays. -/
structure NormalEquations (K : Type) where
  lhs : LinearOperator K
  rhsBase : Signal K

/-- The solution of an x-update, and the report of the linear solve if there was one. -/
structure SubproblemReport (K W : Type) where
  x : Signal K
  linearSolve : Option (CgReport W)

/-- A strategy given from outside: how it prepares, and how it solves an x-update from a starting
point after the given earlier solves, the latest first. -/
structure ExternalStrategy (K R W : Type) where
  setup : Functional K R W → List (LinearOperator K × R) → Eval K W Unit
  solve : List (XUpdate K R W × Signal K) → XUpdate K R W → Signal K →
    Eval K W (SubproblemReport K W)

/-- A way to solve the x-update. -/
inductive Strategy (K R W : Type) where
  | descent (steps : Nat) (stepSize : R)
  | leastSquares (options : CgOptions W) (equations : Option (NormalEquations K))
  | external (e : ExternalStrategy K R W) (solves : List (XUpdate K R W × Signal K))

namespace Descent

variable {K R W : Type} [RealArithmetic R] [RealArithmetic W] [Widening R W] [Scalar K R W]

/-- The number of step sizes that a line search tries. -/
def maxTries : Nat := 60

/-- Halve the step size until the objective falls far enough below its value `phi`.  The result is
the accepted point and its step size. -/
def search (p : XUpdate K R W) (x g : Signal K) (phi gradientSqr : R) :
    Nat → R → Eval K W (Option (Signal K × R))
  | 0, _ => return none
  | tries + 1, t => do
    let candidate ← x.addScaled (-(ofReal t : K)) g
    let value ← p.objective candidate
    if le value (phi - half * t * gradientSqr) then return some (candidate, t)
    else search p x g phi gradientSqr tries (t * half)

/-- One gradient step, unless the gradient vanishes or the line search finds no decrease. -/
def step (p : XUpdate K R W) (x : Signal K) (stepSize : R) :
    Eval K W (Option (Signal K × R)) := do
  let g ← p.gradient x
  let gradientSqr : R := g.normSqr
  if beq gradientSqr 0 then return none
  else
    let phi ← p.objective x
    let found ← search p x g phi gradientSqr maxTries stepSize
    if found.isNone then report .searchStalled
    return found

/-- Take gradient steps, each starting its line search with twice the last accepted step size.  The
step size is kept when a later step fails. -/
def run (p : XUpdate K R W) :
    Nat → Signal K → R → StateM (Trace K W) (Except Error (Signal K) × R)
  | 0, x, stepSize => return (.ok x, stepSize)
  | steps + 1, x, stepSize => do
    match ← (step p x stepSize).run with
    | .error e => return (.error e, stepSize)
    | .ok none => return (.ok x, stepSize)
    | .ok (some (next, t)) => run p steps next (t + t)

end Descent

namespace NormalEquations

variable {K R W : Type} [RealArithmetic R] [RealArithmetic W] [Widening R W] [Scalar K R W]

/-- Add the weighted Gram operators of some operators to an operator. -/
def addGrams : List (LinearOperator K × R) → LinearOperator K → Except Error (LinearOperator K)
  | [], lhs => .ok lhs
  | (c, weight) :: rest, lhs => do
    let lhs ← lhs.add (.multiple (ofReal weight) c.gramOperator)
    addGrams rest lhs

/-- The normal equations of a squared loss and weighted operators. -/
def ofLoss (l : SquaredLoss K R) (operators : List (LinearOperator K × R)) :
    Eval K W (NormalEquations K) := do
  let weight : K := ofReal (l.scale + l.scale)
  let lhs ← addGrams operators (.multiple weight l.operator.gramOperator)
  let pulled ← l.operator.adjoint l.observation
  report (.linearSystem lhs.text)
  return ⟨lhs, pulled.scaled weight⟩

/-- Add what the couplings contribute to the right-hand side. -/
def addCouplings : List (Coupling K R) → Signal K → Eval K W (Signal K)
  | [], rhs => return rhs
  | c :: cs, rhs => do
    let target ← c.z.sub c.u
    let back ← c.operator.adjoint target
    let rhs ← rhs.addScaled (ofReal c.weight) back
    addCouplings cs rhs

/-- Solve the equations for the current couplings. -/
def solve (n : NormalEquations K) (options : CgOptions W) (couplings : List (Coupling K R))
    (x : Signal K) : Eval K W (SubproblemReport K W) := do
  let rhs ← addCouplings couplings n.rhsBase
  let (solution, info) ← conjugateGradient n.lhs rhs x options
  if !info.converged then
    report (.unconverged options.tol info.iterations info.residual)
  return ⟨solution, some info⟩

end NormalEquations

namespace Strategy

variable {K R W : Type} [RealArithmetic R] [RealArithmetic W] [Widening R W] [Scalar K R W]

/-- Gradient descent with the initial step size one. -/
def ofSteps (steps : Nat) : Strategy K R W := .descent steps 1

/-- Conjugate gradients on the normal equations, which have not been set up. -/
def ofOptions (options : CgOptions W) : Strategy K R W := .leastSquares options none

/-- Prepare the strategy for a functional and weighted operators. -/
def setup (s : Strategy K R W) (f : Functional K R W) (operators : List (LinearOperator K × R)) :
    Eval K W (Strategy K R W) :=
  match s with
  | .descent steps stepSize =>
    if steps = 0 then throw (.configuration .noInnerIteration)
    else do
      report (.gradientSteps steps f.name)
      return .descent steps stepSize
  | .leastSquares options _ =>
    match f.asSquaredLoss? with
    | none => throw (.configuration (.notLeastSquares f.name))
    | some l => do
      let equations ← NormalEquations.ofLoss l operators
      return .leastSquares options (some equations)
  | .external e solves => do
    e.setup f operators
    return .external e solves

/-- Solve an x-update from a starting point.  The strategy is returned with what it carries to the
next solve, also when this one fails. -/
def solve (s : Strategy K R W) (p : XUpdate K R W) (x : Signal K) :
    StateM (Trace K W) (Except Error (SubproblemReport K W) × Strategy K R W) :=
  match s with
  | .descent steps stepSize => do
    let (result, stepSize) ← Descent.run p steps x stepSize
    return (result.map fun x => ⟨x, none⟩, .descent steps stepSize)
  | .leastSquares _ none => return (.error (.configuration .notSetUp), s)
  | .leastSquares options (some equations) => do
    let result ← (equations.solve options p.couplings x).run
    return (result, s)
  | .external e solves => do
    let result ← (e.solve solves p x).run
    return (result, .external e ((p, x) :: solves))

end Strategy

end OperatorSplitting
