import OperatorSplitting.Trace

/-!
# Reference solutions of one-dimensional total variation

The total-variation objective of a signal `x` for samples `y` is `‖x - y‖² / 2 + λ Σ |xᵢ₊₁ - xᵢ|`.
Its dual problem has box constraints and is solved by accelerated projected gradient steps.  The
difference of the primal and the dual objective certifies how good the solution is.
-/

namespace OperatorSplitting.TotalVariation

open RealArithmetic

/-- A solution with its objective, its certificate and the number of iterations. -/
structure Reference (W : Type) where
  x : Array W
  objective : W
  gap : W
  iterations : Nat

section

variable {W : Type} [RealArithmetic W]

/-- The matrix of the differences of neighbours among `n` samples. -/
def differenceMatrix (n : Nat) : DenseMatrix W :=
  .ofFn (n - 1) n fun i j => if j = i + 1 then 1 else if j = i then -1 else 0

/-- The matrix of the differences, if memory holds it. -/
def differenceMatrix? (n : Nat) : Option (DenseMatrix W) :=
  if Storable [n - 1, n] then some (differenceMatrix n) else none

theorem differenceMatrix?_eq_some_iff {n : Nat} {d : DenseMatrix W} :
    differenceMatrix? n = some d ↔ Storable [n - 1, n] ∧ d = differenceMatrix n := by
  unfold differenceMatrix?
  split
  · next h => simp [h, eq_comm]
  · next h => simp [h]

/-- The transposed matrix. -/
def transposed (d : DenseMatrix W) : DenseMatrix W := .ofFn d.cols d.rows fun j i => d.entry i j

/-- The sum of the values of `f`, added from left to right to the negative of zero: in rounded
arithmetic this is the number that leaves every other one as it is when it is added. -/
def sumTerms {α : Type} (f : α → W) (terms : Array α) : W :=
  terms.foldl (fun acc a => acc + f a) (-0)

/-- The squared distances, of as many samples as both signals have. -/
def fidelity (y x : Array W) : W :=
  sumTerms (fun p : W × W => (p.1 - p.2) * (p.1 - p.2)) (x.zip y)

/-- The sum of the moduli of the differences of neighbours. -/
def variation (x : Array W) : W :=
  sumTerms (fun p : W × W => abs (p.2 - p.1)) (x.zip (x.extract 1 x.size))

/-- The objective. -/
def objective (y x : Array W) (lambda : W) : W := half * fidelity y x + lambda * variation x

/-- The squared norm. -/
def normSqr (x : Array W) : W := sumEntries (fun v => v * v) x

/-- The samples with the weight of the variation, and the differences with their transpose. -/
structure Problem (W : Type) where
  y : Array W
  lambda : W
  differences : DenseMatrix W
  transpose : DenseMatrix W

/-- The problem of some samples and the matrix of their differences. -/
def Problem.ofDifferences (y : Array W) (lambda : W) (d : DenseMatrix W) : Problem W :=
  ⟨y, lambda, d, transposed d⟩

/-- The primal point of a dual point: the samples minus its image under the transposed matrix. -/
def primalPoint (p : Problem W) (w : Array W) : Array W :=
  Array.zipWith (· - ·) p.y (p.transpose.mulVec w)

/-- The primal point of a dual point, its objective, and the gap to the dual objective. -/
def certificate (p : Problem W) (w : Array W) : Array W × W × W :=
  let x := primalPoint p w
  let value := objective p.y x p.lambda
  let dual := half * normSqr p.y - half * normSqr x
  (x, value, value - dual)

/-- The dual point, its extrapolation, the momentum, and the number of iterations. -/
structure DualState (W : Type) where
  w : Array W
  v : Array W
  momentum : W
  iteration : Nat

/-- A projected gradient step of length one quarter from the extrapolated point. -/
def DualState.step (p : Problem W) (s : DualState W) : DualState W :=
  let ascent := p.differences.mulVec (primalPoint p s.v)
  let quarter : W := half * half
  let w := Array.zipWith (fun v a => clamp (v + a * quarter) (-p.lambda) p.lambda) s.v ascent
  let four : W := two + two
  let momentum := half * (1 + sqrt (1 + four * s.momentum * s.momentum))
  let weight := (s.momentum - 1) / momentum
  let v := Array.zipWith (fun new old => new + (new - old) * weight) w s.w
  ⟨w, v, momentum, s.iteration + 1⟩

/-- Iterate while the gap is above a tolerance, at most the given number of times. -/
def iterate (p : Problem W) (tol : W) : Nat → DualState W → DualState W
  | 0, s => s
  | n + 1, s => if lt tol (certificate p s.w).2.2 then iterate p tol n (s.step p) else s

/-- The dual point zero. -/
def DualState.start (n : Nat) : DualState W :=
  let w := Array.replicate (n - 1) 0
  ⟨w, w, 1, 0⟩

/-- Solve the problem until the gap is at most a tolerance, or the iterations are used up.  Memory has
to hold the matrix of the differences. -/
def reference {K : Type} (y : Array W) (lambda : W) (maxIter : Nat) (tol : W) :
    Eval K W (Reference W) :=
  if y.size < 2 then throw (.configuration (.tooFewSamples y.size))
  else if !(isNonNegative lambda) then
    throw (.configuration (.variationWeight (NumberText.plain lambda)))
  else do
    let d : DenseMatrix W ← orMisuse (differenceMatrix? y.size)
    let p := Problem.ofDifferences y lambda d
    let s := iterate p tol maxIter (.start y.size)
    let (x, value, gap) := certificate p s.w
    report (.referenceSolved value s.iteration gap)
    return ⟨x, value, gap, s.iteration⟩

end

end OperatorSplitting.TotalVariation
