import OperatorSplitting.Signal

/-!
# Finite differences

The difference along an axis is the array without its first slab minus the array without its last
slab.  A boundary rule says what follows at the end of the axis: nothing, the difference to zero, or
the difference to the first slab.  Differences along several axes of equal extents are stacked along
a new leading axis, and are blocks otherwise.  Joining and stacking fail where the result cannot be
addressed.
-/

namespace OperatorSplitting

/-- What follows the inner differences of an axis. -/
inductive Boundary where
  | truncate
  | appendZero
  | circular
deriving DecidableEq, Repr

/-- The first fault of the axes, of which `seen` have been examined. -/
def axesFault? (dims : List Nat) : List Nat → List Nat → Option ConfigurationFault
  | _, [] => none
  | seen, axis :: rest =>
    if dims.length ≤ axis then some (.differenceAxisOutOfRange axis dims.length)
    else if axis ∈ seen then some (.differenceAxisRepeated axis)
    else if dims.getD axis 0 < 2 then some (.differenceAxisTooShort axis (dims.getD axis 0))
    else axesFault? dims (axis :: seen) rest

/-- Finite differences of arrays of the given extents along some axes. -/
structure FiniteDifference where
  dims : List Nat
  axes : List Nat
  boundary : Boundary
  axes_ne_nil : axes ≠ []
  axes_fit : axesFault? dims [] axes = none

namespace FiniteDifference

/-- The operator along the given axes, or along all axes. -/
def ofAxes (dims : List Nat) (axes : Option (List Nat)) (boundary : Boundary) :
    Except Error FiniteDifference :=
  let axes := axes.getD (List.range dims.length)
  if hne : axes = [] then .error (.configuration .noDifferenceAxis)
  else
    match h : axesFault? dims [] axes with
    | some fault => .error (.configuration fault)
    | none => .ok ⟨dims, axes, boundary, hne, h⟩

/-- The extents of the difference along one axis. -/
def axisDims (op : FiniteDifference) (axis : Nat) : List Nat :=
  match op.boundary with
  | .truncate => op.dims.modify axis (· - 1)
  | .appendZero | .circular => op.dims

/-- Whether the differences along all axes have equal extents. -/
def isStacked (op : FiniteDifference) : Bool :=
  (op.axes.map op.axisDims).all fun d => op.axes.head?.map op.axisDims = some d

/-- The shape of the signals that are differenced. -/
def input (op : FiniteDifference) : Shape := .flat op.dims

/-- The shape of the differences. -/
def output (op : FiniteDifference) : Shape :=
  match op.axes with
  | [axis] => .flat (op.axisDims axis)
  | axes =>
    if op.isStacked then .flat (axes.length :: op.axisDims (axes.headD 0))
    else .blocked (axes.map op.axisDims)

section

variable {K : Type} [Zero K] [Add K] [Sub K] [Neg K]

/-- Two parts one after the other along an axis. -/
def joined (axis : Nat) (a b : Tensor K) : Except Error (Tensor K) :=
  match Tensor.join axis a b with
  | .ok t => .ok t
  | .error fault => .error (.numerical (.joining fault))

/-- The difference along an axis. -/
def differenceAlong (op : FiniteDifference) (x : Tensor K) (axis : Nat) :
    Except Error (Tensor K) := do
  let n := op.dims.getD axis 0
  let head ← orMisuse (x.take? axis (n - 1))
  let tail ← orMisuse (x.drop? axis 1)
  let inner ← orMisuse (Tensor.zipStretched? (· - ·) tail head)
  match op.boundary with
  | .truncate => .ok inner
  | .appendZero =>
    let last ← orMisuse (x.drop? axis (n - 1))
    joined axis inner (last.map (- ·))
  | .circular =>
    let first ← orMisuse (x.take? axis 1)
    let last ← orMisuse (x.drop? axis (n - 1))
    let wrapped ← orMisuse (Tensor.zipStretched? (· - ·) first last)
    joined axis inner wrapped

/-- The adjoint of the difference along an axis.  An interior entry is added one place further on
and subtracted in its own place; the boundary entries follow. -/
def adjointAlong (op : FiniteDifference) (y : Tensor K) (axis : Nat) : Option (Tensor K) := do
  let n := op.dims.getD axis 0
  let interior ← y.take? axis (n - 1)
  let interior ← interior.stretch? (op.dims.set axis (n - 1))
  let body (idx : List Nat) : K :=
    let k := idx.getD axis 0
    let lifted := if k = 0 then 0 else 0 + interior.entry (idx.set axis (k - 1))
    if k = n - 1 then lifted else lifted - interior.entry idx
  match op.boundary with
  | .truncate => Tensor.build? op.dims body
  | .appendZero =>
    let last ← y.drop? axis (n - 1)
    let last ← last.stretch? (op.dims.set axis 1)
    Tensor.build? op.dims fun idx =>
      if idx.getD axis 0 = n - 1 then body idx - last.entry (idx.set axis 0) else body idx
  | .circular =>
    let last ← y.drop? axis (n - 1)
    let last ← last.stretch? (op.dims.set axis 1)
    Tensor.build? op.dims fun idx =>
      let k := idx.getD axis 0
      if k = n - 1 then body idx - last.entry (idx.set axis 0)
      else if k = 0 then body idx + last.entry (idx.set axis 0)
      else body idx

/-- The differences along some axes. -/
def differences (op : FiniteDifference) (x : Tensor K) :
    List Nat → Except Error (List (Tensor K))
  | [] => .ok []
  | axis :: axes => do
    let t ← op.differenceAlong x axis
    let ts ← op.differences x axes
    .ok (t :: ts)

/-- The differences of a signal. -/
def forward (op : FiniteDifference) (x : Signal K) : Except Error (Signal K) := do
  let x ← x.expectFlat "finite difference"
  match op.axes with
  | [axis] => (op.differenceAlong x axis).map .flat
  | axes =>
    let parts ← op.differences x axes
    if op.isStacked then
      match Tensor.stack parts with
      | .ok t => .ok (.flat t)
      | .error fault => .error (.numerical (.stacking fault))
    else .ok (.blocked parts)

/-- Add the adjoints of the layers of a stack, from the `k`-th one on, to a sum. -/
def addLayers (op : FiniteDifference) (y : Tensor K) : List Nat → Nat → Tensor K → Option (Tensor K)
  | [], _, sum => some sum
  | axis :: axes, k, sum => do
    let part ← y.layer? k
    let term ← op.adjointAlong part axis
    let sum ← Tensor.zip? (· + ·) sum term
    op.addLayers y axes (k + 1) sum

/-- Add the adjoints of some blocks to a sum. -/
def addBlocks (op : FiniteDifference) :
    List (Tensor K) → List Nat → Tensor K → Option (Tensor K)
  | part :: parts, axis :: axes, sum => do
    let term ← op.adjointAlong part axis
    let sum ← Tensor.zip? (· + ·) sum term
    op.addBlocks parts axes sum
  | _, _, sum => some sum

/-- The adjoint of the differences; memory has to hold the result. -/
def adjoint (op : FiniteDifference) (y : Signal K) : Except Error (Signal K) :=
  let sum : Option (Tensor K) := do
    let zero ← Tensor.build? op.dims fun _ => 0
    match y, op.axes with
    | .flat t, [axis] => op.adjointAlong t axis
    | .flat t, axes => op.addLayers t axes 0 zero
    | .blocked ts, axes => op.addBlocks ts axes zero
  (orMisuse sum).map .flat

end

end FiniteDifference

end OperatorSplitting
