import OperatorSplitting.Trace

/-!
# Closure operators

An operator may be given by a function.  If no adjoint is given with it, the adjoint is derived the
first time it is needed: the function is applied to every basis vector, and the conjugates of the
results are the rows of a matrix.  The matrix is kept in the cell of the closure, so that this
happens at most once; a function that fails on some basis vector leaves the cell without a matrix.
-/

namespace OperatorSplitting

/-- How far the adjoint of an operator is known. -/
inductive AdjointState where
  | explicit
  | unresolved
  | resolved
deriving DecidableEq, Repr

namespace AdjointState

/-- The state of an operator with two parts. -/
def merge : AdjointState → AdjointState → AdjointState
  | .unresolved, _ | _, .unresolved => .unresolved
  | .resolved, _ | _, .resolved => .resolved
  | .explicit, .explicit => .explicit

/-- The name of a state. -/
def name : AdjointState → String
  | .explicit => "Explicit"
  | .unresolved => "Unresolved"
  | .resolved => "Resolved"

theorem merge_comm (a b : AdjointState) : merge a b = merge b a := by
  cases a <;> cases b <;> rfl

theorem merge_assoc (a b c : AdjointState) : merge (merge a b) c = merge a (merge b c) := by
  cases a <;> cases b <;> cases c <;> rfl

end AdjointState

/-- An operator given by functions of signals.  Closures with the same number are the same closure
and share a cell. -/
structure Closure (K : Type) where
  id : Nat
  input : Shape
  output : Shape
  forwardFn : Signal K → Except Error (Signal K)
  adjointFn? : Option (Signal K → Except Error (Signal K))

namespace Closure

variable {K R W : Type} [Scalar K R W]

/-- Change the cell of the closure. -/
def touch (c : Closure K) (f : Cell K → Cell K) : Eval K W Unit :=
  modify fun t => t.modifyCell c.id f

/-- Apply the function and check the shape of its result. -/
def forward (c : Closure K) (x : Signal K) : Eval K W (Signal K) := do
  c.touch fun cell => { cell with forwardCalls := cell.forwardCalls + 1 }
  let y ← c.forwardFn x
  if y.shape = c.output then
    return y
  else
    throw (.shapeMismatch "closure operator output" c.output y.shape)

/-- The `j`-th basis vector among `n` elements. -/
def basisEntries (n j : Nat) : Array K := Array.ofFn fun i : Fin n => if i.val = j then 1 else 0

/-- The images of `count` basis vectors from the `j`-th one on. -/
def columnsFrom (c : Closure K) : Nat → Nat → Eval K W (List (Array K))
  | 0, _ => return []
  | count + 1, j => do
    let e ← Signal.ofEntries c.input (basisEntries c.input.size j)
    let y ← c.forward e
    let rest ← c.columnsFrom count (j + 1)
    return y.entries :: rest

/-- The matrix of the adjoint, whose rows are the conjugate images of the basis vectors.  Memory has
to hold the matrix and a basis vector. -/
def probe (c : Closure K) : Eval K W (DenseMatrix K) := do
  let rows := c.input.size
  let cols := c.output.size
  if Storable [rows, cols] ∧ Storable [rows] then
    let columns ← c.columnsFrom rows 0
    let columns := columns.toArray
    return .ofFn rows cols fun j i => Scalar.conj ((columns.getD j #[]).getD i 0)
  else throw .misuse

/-- The matrix of the adjoint: the kept one, or else a new one, which is then kept. -/
def derivedAdjoint (c : Closure K) : Eval K W (DenseMatrix K) := do
  match ((← get).cell c.id).derived with
  | some m => return m
  | none =>
    let m ← c.probe
    c.touch fun cell => { cell with derived := some m, resolutions := cell.resolutions + 1 }
    report (.adjointDerived c.input c.output)
    return m

/-- Apply the given adjoint and check the shape of its result, or apply the derived adjoint. -/
def adjoint (c : Closure K) (y : Signal K) : Eval K W (Signal K) := do
  match c.adjointFn? with
  | some f =>
    c.touch fun cell => { cell with adjointCalls := cell.adjointCalls + 1 }
    let x ← f y
    if x.shape = c.input then
      return x
    else
      throw (.shapeMismatch "closure operator adjoint" c.input x.shape)
  | none =>
    let m ← c.derivedAdjoint
    let v ← orMisuse (m.mulVec? y.entries)
    Signal.ofEntries c.input v

/-- Derive the adjoint if there is none yet. -/
def resolve (c : Closure K) : Eval K W Unit := do
  if c.adjointFn?.isNone then
    let _ ← c.derivedAdjoint

/-- How far the adjoint is known. -/
def adjointState (c : Closure K) (t : Trace K W) : AdjointState :=
  if c.adjointFn?.isSome then .explicit
  else if (t.cell c.id).derived.isSome then .resolved else .unresolved

end Closure

end OperatorSplitting
