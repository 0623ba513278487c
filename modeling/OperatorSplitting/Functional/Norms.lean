import OperatorSplitting.Signal

/-!
# Norms and their proximal maps

The proximal map of `g` with step `t` takes `v` to the minimizer of `‖u - v‖² / (2 t) + g u`.  The
norms here have it in closed form: moduli are shrunk by the step, and where they would get below
zero they become zero.  In the mixed norm the elements are grouped, along an axis or across the
blocks, and each group is shrunk as a whole.
-/

namespace OperatorSplitting

open RealArithmetic Scalar

variable {K R W : Type} [RealArithmetic R] [Scalar K R W]

/-- Shrink the modulus of an element by `t`. -/
def shrink (v : K) (t : R) : K :=
  let m := modulus v
  if le m t then 0 else v * ofReal ((m - t) / m)

namespace L1

/-- The sum of the moduli. -/
def value (x : Signal K) : R := sumEntries modulus x.entries

/-- Shrink every element. -/
def prox (v : Signal K) (step : R) : Signal K := v.map fun x => shrink x step

end L1

namespace SquaredL2

/-- The squared norm. -/
def value (x : Signal K) : R := x.normSqr

/-- The proximal map divides by one plus twice the step. -/
def prox (v : Signal K) (step : R) : Signal K :=
  v.scaled (ofReal (1 / (1 + step + step)))

/-- The gradient. -/
def grad (x : Signal K) : Signal K := x.scaled (ofReal two)

end SquaredL2

namespace NonNegative

/-- Complex elements have no order. -/
def requireReal (K : Type) {R W : Type} [Scalar K R W] : Except Error Unit :=
  if (Scalar.dtype K).isComplex then .error (.type (.complexIndicator (Scalar.dtype K)))
  else .ok ()

/-- Zero when no element is below zero, infinite otherwise. -/
def value (x : Signal K) : Except Error R := do
  requireReal K
  .ok (if x.entries.all fun v => le 0 (re v) then 0 else infinity)

/-- The nearest signal without elements below zero. -/
def prox (v : Signal K) : Except Error (Signal K) := do
  requireReal K
  .ok (v.map fun x => ofReal (RealArithmetic.max (re x) 0))

end NonNegative

namespace L21

/-- Add the squared moduli of some blocks, all of the same extents, to a sum. -/
def addSquares (first : List Nat) : List (Tensor K) → Tensor R → Except Error (Tensor R)
  | [], sum => .ok sum
  | b :: bs, sum =>
    match Tensor.zip? (fun s v => s + modulusSqr v) sum b with
    | some sum => addSquares first bs sum
    | none => .error (.shapeMismatch "l2,1 norm across blocks" (.flat first) (.flat b.dims))

/-- The norm of each group: along the given axis of one array, which is kept with extent one, or
across the blocks. -/
def groupNorms (axis : Nat) (x : Signal K) : Except Error (Tensor R) :=
  match x with
  | .flat t =>
    if t.rank ≤ axis then .error (.configuration (.groupAxisOutOfRange axis x.shape))
    else do
      let squares ← orMisuse ((t.map modulusSqr).sumAxis? axis)
      .ok (squares.map sqrt)
  | .blocked [] => .error (.configuration .groupsOfNoBlocks)
  | .blocked (b :: bs) => (addSquares b.dims bs (b.map modulusSqr)).map (·.map sqrt)

/-- The sum of the norms of the groups. -/
def value (axis : Nat) (x : Signal K) : Except Error R := do
  let norms ← groupNorms axis x
  .ok (sumEntries id norms.entries)

/-- The factor by which a group of norm `n` is shrunk. -/
def factor (step n : R) : K := if le n step then 0 else ofReal ((n - step) / n)

/-- Multiply an array by the factors of its groups. -/
def scaleBlock (factors b : Tensor K) : Except Error (Tensor K) :=
  let product : Option (Tensor K) := do
    let f ← factors.stretch? b.dims
    Tensor.zip? (· * ·) f b
  match product with
  | some t => .ok t
  | none => .error (.shapeMismatch "l2,1 prox" (.flat b.dims) (.flat factors.dims))

/-- Multiply some blocks by the factors of their groups. -/
def scaleBlocks (factors : Tensor K) : List (Tensor K) → Except Error (List (Tensor K))
  | [] => .ok []
  | b :: bs => do
    let t ← scaleBlock factors b
    let ts ← scaleBlocks factors bs
    .ok (t :: ts)

/-- Shrink every group. -/
def prox (axis : Nat) (v : Signal K) (step : R) : Except Error (Signal K) := do
  let norms ← groupNorms axis v
  let factors : Tensor K := norms.map (factor step)
  match v with
  | .flat t => (scaleBlock factors t).map .flat
  | .blocked ts => (scaleBlocks factors ts).map .blocked

end L21

end OperatorSplitting
