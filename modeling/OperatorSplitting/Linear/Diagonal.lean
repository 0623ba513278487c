import OperatorSplitting.Signal

/-!
# Diagonal operators

A diagonal operator multiplies elementwise after both factors have been stretched to their common
shape.  Its adjoint multiplies by the conjugate and sums over everything that was stretched.
-/

namespace OperatorSplitting

/-- Elementwise multiplication by `factor` on signals of shape `input`. -/
structure Diagonal (K : Type) where
  factor : Signal K
  input : Shape
  output : Shape
  broadcast_eq : input.broadcast factor.shape = some output

namespace Diagonal

variable {K R W : Type} [Scalar K R W]

/-- The operator on a given input shape. -/
def ofShape (factor : Signal K) (input : Shape) : Except Error (Diagonal K) :=
  match h : input.broadcast factor.shape with
  | some output => .ok ⟨factor, input, output, h⟩
  | none => .error (.shapeMismatch "diagonal broadcast" input factor.shape)

/-- The product of two arrays stretched to the given extents; memory has to hold it. -/
def stretchedProduct (f : K → K → K) (x d : Tensor K) (dims : List Nat) :
    Except Error (Tensor K) :=
  if x.canStretch dims && d.canStretch dims then orMisuse do
    let x ← x.stretch? dims
    let d ← d.stretch? dims
    Tensor.zip? f x d
  else .error (.shapeMismatch "diagonal broadcast" (.flat dims) (.flat x.dims))

/-- The products of some blocks, as many as all lists have. -/
def forwardBlocks :
    List (Tensor K) → List (Tensor K) → List (List Nat) → Except Error (List (Tensor K))
  | x :: xs, d :: ds, dims :: rest => do
    let t ← stretchedProduct (· * ·) x d dims
    let ts ← forwardBlocks xs ds rest
    .ok (t :: ts)
  | _, _, _ => .ok []

/-- Multiply by the factor. -/
def forward (op : Diagonal K) (x : Signal K) : Except Error (Signal K) :=
  match x, op.factor, op.output with
  | .flat t, .flat d, .flat dims => (stretchedProduct (· * ·) t d dims).map .flat
  | .blocked ts, .blocked ds, .blocked blocks => (forwardBlocks ts ds blocks).map .blocked
  | x, _, _ => .error (.shapeMismatch "diagonal" op.input x.shape)

/-- Multiply one array by the conjugate and sum to the given extents. -/
def adjointTensor (y d : Tensor K) (target : List Nat) : Except Error (Tensor K) := do
  let full ← stretchedProduct (fun a b => a * Scalar.conj b) y d y.dims
  orMisuse (full.sumTo? target)

/-- The adjoint on some blocks, as many as all lists have. -/
def adjointBlocks :
    List (Tensor K) → List (Tensor K) → List (List Nat) → Except Error (List (Tensor K))
  | y :: ys, d :: ds, target :: rest => do
    let t ← adjointTensor y d target
    let ts ← adjointBlocks ys ds rest
    .ok (t :: ts)
  | _, _, _ => .ok []

/-- Multiply by the conjugate factor and sum over what was stretched. -/
def adjoint (op : Diagonal K) (y : Signal K) : Except Error (Signal K) :=
  match y, op.factor, op.input with
  | .flat t, .flat d, .flat target => (adjointTensor t d target).map .flat
  | .blocked ts, .blocked ds, .blocked targets => (adjointBlocks ts ds targets).map .blocked
  | y, _, _ => .error (.shapeMismatch "diagonal adjoint" op.output y.shape)

/-- The factor, if nothing is stretched. -/
def diagonalEntries? (op : Diagonal K) : Option (Signal K) :=
  if op.input = op.factor.shape ∧ op.output = op.factor.shape then some op.factor else none

end Diagonal

end OperatorSplitting
