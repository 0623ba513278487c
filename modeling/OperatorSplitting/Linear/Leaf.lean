import OperatorSplitting.Linear.Closure
import OperatorSplitting.Linear.Diagonal
import OperatorSplitting.Linear.Difference
import OperatorSplitting.Linear.Convolution

/-!
# Primitive operators

The leaves of operator expressions, with their declared shapes, both directions of evaluation, and
the diagonal of those that multiply elementwise.
-/

namespace OperatorSplitting

/-- A primitive operator. -/
inductive Leaf (K : Type) where
  | identity (shape : Shape)
  | matrix (m : DenseMatrix K)
  | diagonal (d : Diagonal K)
  | difference (d : FiniteDifference)
  | convolution (c : Convolution K)
  | closure (c : Closure K)

namespace Leaf

variable {K R W : Type}

/-- The kind of operator, as messages name it. -/
def name : Leaf K → String
  | .identity _ => "Identity"
  | .matrix _ => "MatrixOperator"
  | .diagonal _ => "Diagonal"
  | .difference _ => "FiniteDifference"
  | .convolution _ => "Convolve"
  | .closure _ => "FnOperator"

/-- The shape of the signals that the operator takes. -/
def input : Leaf K → Shape
  | .identity shape => shape
  | .matrix m => .vector m.cols
  | .diagonal d => d.input
  | .difference d => d.input
  | .convolution c => c.input
  | .closure c => c.input

/-- The shape of the results. -/
def output : Leaf K → Shape
  | .identity shape => shape
  | .matrix m => .vector m.rows
  | .diagonal d => d.output
  | .difference d => d.output
  | .convolution c => c.output
  | .closure c => c.output

/-- The operator as a map, without a check of the shape. -/
def forward [Scalar K R W] (leaf : Leaf K) (x : Signal K) : Eval K W (Signal K) :=
  match leaf with
  | .identity _ => return x
  | .matrix m => m.forward x
  | .diagonal d => d.forward x
  | .difference d => d.forward x
  | .convolution c => c.forward x
  | .closure c => c.forward x

/-- The adjoint as a map, without a check of the shape. -/
def adjoint [Scalar K R W] (leaf : Leaf K) (y : Signal K) : Eval K W (Signal K) :=
  match leaf with
  | .identity _ => return y
  | .matrix m => m.adjoint y
  | .diagonal d => d.adjoint y
  | .difference d => d.adjoint y
  | .convolution c => c.adjoint y
  | .closure c => c.adjoint y

/-- How far the adjoint is known; only a closure may have to derive it. -/
def adjointState (leaf : Leaf K) (t : Trace K W) : AdjointState :=
  match leaf with
  | .closure c => c.adjointState t
  | _ => .explicit

/-- Derive the adjoint of a closure. -/
def resolve [Scalar K R W] : Leaf K → Eval K W Unit
  | .closure c => c.resolve
  | _ => return ()

/-- The factors of an elementwise multiplication that keeps the shape, if the operator is one; memory
has to hold those of the identity. -/
def diagonalEntries? [Scalar K R W] : Leaf K → Except Error (Option (Signal K))
  | .identity shape => (Signal.filled shape 1).map some
  | .diagonal d => .ok d.diagonalEntries?
  | _ => .ok none

end Leaf

end OperatorSplitting
