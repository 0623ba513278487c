import OperatorSplitting.Admm.Strategy
import OperatorSplitting.Admm.Config
import OperatorSplitting.Admm.History
import OperatorSplitting.Admm.Timing

/-!
# The alternating direction method of multipliers

The solver minimizes `f x + Σ g (C x)` over `x`.  Every term `g (C x)` has a split variable `z` that
stands for `C x` and a scaled dual variable `u`.  A step updates `x`, then all `z` by proximal maps,
then all `u`, and evaluates the residuals; only after all of this has succeeded are the results taken
over.  A failed step leaves the iterates, the iteration number and the history as they were.
-/

namespace OperatorSplitting

open RealArithmetic Scalar Widening

/-- What is to be minimized, and where to start. -/
structure Problem (K R W : Type) where
  f : Functional K R W
  penalties : List (Functional K R W)
  operators : List (LinearOperator K)
  weights : List R
  start : Signal K

/-- A term `g (C x)` with its weight and its variables. -/
structure Term (K R W : Type) where
  penalty : Functional K R W
  operator : LinearOperator K
  weight : R
  z : Signal K
  u : Signal K

/-- The coupling of the x-update that belongs to a term. -/
def Term.coupling {K R W : Type} (t : Term K R W) : Coupling K R :=
  ⟨t.operator, t.weight, t.z, t.u⟩

/-- A run in progress. -/
structure Solver (K R W : Type) where
  f : Functional K R W
  terms : List (Term K R W)
  config : Config W
  strategy : Strategy K R W
  x : Signal K
  iteration : Nat
  state : RunState
  history : History W
  timing : Timing W

namespace Problem

variable {K R W : Type} [RealArithmetic R]

/-- The first operator that does not take signals of the shape of the starting point. -/
def operatorFault? (start : Shape) : List (LinearOperator K) → Nat → Option ConfigurationFault
  | [], _ => none
  | c :: cs, i =>
    if c.input = start then operatorFault? start cs (i + 1)
    else some (.operatorInput i c.input start)

/-- The first weight that is not positive and finite. -/
def weightFault? : List R → Nat → Option ConfigurationFault
  | [], _ => none
  | r :: rs, i =>
    if isPositive r then weightFault? rs (i + 1) else some (.weight i (NumberText.plain r))

/-- The first fault of the problem. -/
def fault? [Scalar K R W] (p : Problem K R W) : Option ConfigurationFault :=
  let n := p.penalties.length
  if n ≠ p.operators.length ∨ n ≠ p.weights.length then
    some (.unequalLengths n p.operators.length p.weights.length)
  else
    match operatorFault? p.start.shape p.operators 0 with
    | some fault => some fault
    | none =>
      match weightFault? p.weights 0 with
      | some fault => some fault
      | none =>
        if !p.f.isSmooth then some (.notSmooth p.f.name)
        else (p.penalties.find? fun g => !g.hasProx).map fun g => .noProx g.name

variable [RealArithmetic W] [Widening R W] [Scalar K R W]

/-- The terms at the starting point: `z` is the image of it and `u` is zero. -/
def terms (start : Signal K) :
    List (Functional K R W) → List (LinearOperator K) → List R → Eval K W (List (Term K R W))
  | g :: gs, c :: cs, weight :: weights => do
    let z ← c.apply start
    let rest ← terms start gs cs weights
    return ⟨g, c, weight, z, .zeros c.output⟩ :: rest
  | _, _, _ => return []

end Problem

namespace Solver

variable {K R W : Type} [RealArithmetic R] [RealArithmetic W] [Widening R W] [Scalar K R W]

/-- Stop with a configuration error, if there is a fault. -/
def refuse : Option ConfigurationFault → Except Error Unit
  | some fault => .error (.configuration fault)
  | none => .ok ()

/-- Check a problem and its settings, prepare the strategy, and stand at the starting point. -/
def create (p : Problem K R W) (config : Config W) (strategy : Strategy K R W) :
    Eval K W (Solver K R W) := do
  refuse config.fault?
  refuse p.fault?
  let strategy ← strategy.setup p.f (p.operators.zip p.weights)
  let terms ← Problem.terms p.start p.penalties p.operators p.weights
  return {
    f := p.f
    terms := terms
    config := config
    strategy := strategy
    x := p.start
    iteration := 0
    state := .initialized
    history := .empty
    timing := Timing.empty.mark "setup" }

/-- The x-update that the current variables pose. -/
def xUpdate (s : Solver K R W) : XUpdate K R W := ⟨s.f, s.terms.map Term.coupling⟩

/-- The variables of a term after a step, beside the term before it and the image of the new `x`. -/
structure TermUpdate (K R W : Type) where
  before : Term K R W
  image : Signal K
  z : Signal K
  u : Signal K

/-- The term after the step. -/
def TermUpdate.after (t : TermUpdate K R W) : Term K R W := { t.before with z := t.z, u := t.u }

/-- The images of the new `x` under the operators. -/
def images (x : Signal K) : List (Term K R W) → Eval K W (List (Term K R W × Signal K))
  | [] => return []
  | t :: ts => do
    let image ← t.operator.apply x
    let rest ← images x ts
    return (t, image) :: rest

/-- The new split variables: the proximal map at the image plus the dual variable. -/
def splitUpdates : List (Term K R W × Signal K) →
    Eval K W (List (Term K R W × Signal K × Signal K))
  | [] => return []
  | (t, image) :: rest => do
    let v ← image.add t.u
    let z ← t.penalty.prox v (1 / t.weight)
    let rest ← splitUpdates rest
    return (t, image, z) :: rest

/-- The new dual variables: each grows by the image minus the split variable. -/
def dualUpdates : List (Term K R W × Signal K × Signal K) →
    Except Error (List (TermUpdate K R W))
  | [] => .ok []
  | (t, image, z) :: rest => do
    let gap ← image.sub z
    let u ← t.u.add gap
    let rest ← dualUpdates rest
    .ok (⟨t, image, z, u⟩ :: rest)

/-- What a step reports about its results. -/
structure Diagnostics (W : Type) where
  objective : Option W
  primalResidual : W
  dualResidual : W

/-- Add the values of the penalties at the images to a sum. -/
def addValues : List (TermUpdate K R W) → W → Eval K W W
  | [], total => return total
  | t :: ts, total => do
    let value ← t.before.penalty.value t.image
    addValues ts (total + widen value)

/-- The objective at the new `x`, if all its parts can be evaluated. -/
def objective (f : Functional K R W) (x : Signal K) (ts : List (TermUpdate K R W)) :
    Eval K W (Option W) :=
  if f.hasEval && ts.all fun t => t.before.penalty.hasEval then do
    let value ← f.value x
    return some (← addValues ts (widen value))
  else return none

/-- Add the squared residuals of some terms to the sums of the primal and the dual ones. -/
def addResiduals : List (TermUpdate K R W) → W → W → Eval K W (W × W)
  | [], primal, dual => return (primal, dual)
  | t :: ts, primal, dual => do
    let gap ← t.image.sub t.z
    let primal := primal + widen (gap.normSqr : R)
    let change ← t.z.sub t.before.z
    let back ← t.before.operator.adjoint change
    let dual := dual + widen ((back.scaled (ofReal t.before.weight)).normSqr : R)
    addResiduals ts primal dual

/-- The objective and the norms of both residuals. -/
def diagnostics (f : Functional K R W) (x : Signal K) (ts : List (TermUpdate K R W)) :
    Eval K W (Diagnostics W) := do
  let value ← objective f x ts
  let (primal, dual) ← addResiduals ts 0 0
  return ⟨value, sqrt primal, sqrt dual⟩

/-- What a step leaves behind even if it fails. -/
structure Carried (K R W : Type) where
  strategy : Strategy K R W
  timing : Timing W
  trace : Trace K W

/-- A computation of a step. -/
abbrev Attempt (K R W : Type) := ExceptT Error (StateM (Carried K R W))

/-- Evaluate inside a step. -/
def Attempt.lift {α : Type} (m : Eval K W α) : Attempt K R W α := fun c =>
  let (result, trace) := m.run c.trace
  (result, { c with trace := trace })

/-- Record a phase of a step, whether it succeeds or not. -/
def Attempt.timed {α : Type} (phase : String) (m : Attempt K R W α) : Attempt K R W α := fun c =>
  let (result, c) := m.run c
  (result, { c with timing := c.timing.mark phase })

/-- Solve the x-update with the strategy at hand. -/
def Attempt.solve (p : XUpdate K R W) (x : Signal K) :
    Attempt K R W (SubproblemReport K W) := fun c =>
  let ((result, strategy), trace) := c.strategy.solve p x c.trace
  (result, { c with strategy := strategy, trace := trace })

/-- The results of a step before they are taken over. -/
structure StepResult (K R W : Type) where
  report : SubproblemReport K W
  updates : List (TermUpdate K R W)
  diagnostics : Diagnostics W

/-- All phases of a step. -/
def attempt (s : Solver K R W) : Attempt K R W (StepResult K R W) := do
  modify fun c => { c with timing := c.timing.startIteration }
  let report ← Attempt.timed "update_x" (Attempt.solve s.xUpdate s.x)
  if !report.x.allFinite then
    throw (.numerical (.nonFiniteIterate (s.iteration + 1)))
  let splits ← Attempt.timed "update_z" <| Attempt.lift do
    splitUpdates (← images report.x s.terms)
  let updates ← Attempt.timed "update_u" <| Attempt.lift (dualUpdates splits)
  let diagnostics ← Attempt.timed "diagnostics" <|
    Attempt.lift (diagnostics s.f report.x updates)
  return ⟨report, updates, diagnostics⟩

/-- The state after an iteration with the given residuals. -/
def nextState (config : Config W) (iteration : Nat) (d : Diagnostics W) : RunState :=
  let reached := match config.stopTolerance with
    | some tol => le (d.primalResidual + d.dualResidual) tol
    | none => false
  if reached then .converged
  else if config.maxIter ≤ iteration then .maxIterReached
  else .running

/-- The row of statistics of an iteration. -/
def statistics (iteration : Nat) (r : StepResult K R W) : IterationStats W where
  iteration := iteration
  time := 0
  objective := r.diagnostics.objective
  primalResidual := r.diagnostics.primalResidual
  dualResidual := r.diagnostics.dualResidual
  innerIterations := r.report.linearSolve.map (·.iterations)
  innerResidual := r.report.linearSolve.map (·.residual)
  innerConverged := r.report.linearSolve.map (·.converged)

/-- Take the results of a step over. -/
def commit (s : Solver K R W) (r : StepResult K R W) : Solver K R W :=
  let iteration := s.iteration + 1
  let state := nextState s.config iteration r.diagnostics
  let recorded := iteration % s.config.record.period = 0 || state.isTerminal
  { s with
    terms := r.updates.map TermUpdate.after
    x := r.report.x
    iteration := iteration
    state := state
    history := if recorded then s.history.push (statistics iteration r) else s.history }

/-- One iteration. -/
def step (s : Solver K R W) : StateM (Trace K W) (Except Error Unit × Solver K R W) := fun trace =>
  if s.state.isTerminal then
    ((.error (.configuration (.alreadyTerminated s.state s.iteration)), s), trace)
  else
    let (result, c) := (attempt s).run ⟨s.strategy, s.timing, trace⟩
    let s := { s with state := .running, strategy := c.strategy, timing := c.timing }
    match result with
    | .error e => ((.error e, s), c.trace)
    | .ok r => ((.ok (), s.commit r), c.trace)

/-- Iterate until the run ends or a step fails, at most the given number of times. -/
def solveWithin : Nat → Solver K R W →
    StateM (Trace K W) (Except Error (Signal K) × Solver K R W)
  | 0, s => return (.ok s.x, s)
  | n + 1, s =>
    if s.state.isTerminal then return (.ok s.x, s)
    else do
      match ← s.step with
      | (.error e, s) => return (.error e, s)
      | (.ok (), s) => solveWithin n s

/-- Run to the end.  A run whose iterations are used up ends without a step. -/
def solve (s : Solver K R W) : StateM (Trace K W) (Except Error (Signal K) × Solver K R W) :=
  let s := if s.config.maxIter ≤ s.iteration && !s.state.isTerminal then
    { s with state := .maxIterReached } else s
  solveWithin (s.config.maxIter - s.iteration) s

end Solver

end OperatorSplitting
