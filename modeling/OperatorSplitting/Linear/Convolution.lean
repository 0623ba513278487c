import OperatorSplitting.Signal

/-!
# Full convolution

Each output entry adds the kernel entries times the input entries that they reach, in the row-major
order of the kernel, to zero.  The output has `n + k - 1` entries along an axis with `n` input
entries and `k` kernel entries.  Where this number is not a count, the convolution has a shape but
no value.
-/

namespace OperatorSplitting

/-- Convolution of arrays of extents `dims` with a kernel. -/
structure Convolution (K : Type) where
  kernel : Tensor K
  dims : List Nat
  rank_eq : kernel.dims.length = dims.length
  kernel_pos : 0 ∉ kernel.dims
  dims_pos : 0 ∉ dims

/-- The position, in an array of the given extents, of the place `m - j` that an output place `m`
reads through a kernel place `j`; `none` outside the array.  The position counts on from `start`. -/
def backOffset? : List Nat → List Nat → List Nat → Nat → Option Nat
  | [], [], [], start => some start
  | n :: ns, m :: ms, j :: js, start =>
    if j ≤ m ∧ m - j < n then backOffset? ns ms js (start * n + (m - j)) else none
  | _, _, _, _ => none

namespace Convolution

variable {K R W : Type}

/-- The convolution with a kernel. -/
def ofKernel (kernel : Tensor K) (dims : List Nat) : Except Error (Convolution K) :=
  if hrank : kernel.dims.length = dims.length then
    if hpos : 0 ∉ kernel.dims ∧ 0 ∉ dims then .ok ⟨kernel, dims, hrank, hpos.1, hpos.2⟩
    else .error (.configuration .emptyConvolution)
  else .error (.configuration (.kernelRank kernel.dims.length dims.length))

/-- The shape of the signals that are convolved. -/
def input (op : Convolution K) : Shape := .flat op.dims

/-- The extents of the result, as counts. -/
def outputDims (op : Convolution K) : List Nat :=
  List.zipWith (fun n k => (n + k - 1) % countRange) op.dims op.kernel.dims

/-- The shape of the result. -/
def output (op : Convolution K) : Shape := .flat op.outputDims

/-- The kernel entries with their places, in row-major order. -/
def taps (op : Convolution K) : List (List Nat × K) :=
  op.kernel.entries.toList.zipIdx.map fun p => (indexAt op.kernel.dims p.2, p.1)

/-- The convolution of an array that has been stretched to the input extents. -/
@[specialize] def convolve [Zero K] [Add K] [Mul K] (op : Convolution K) (x : Tensor K) :
    Tensor K :=
  let taps := op.taps
  .ofFn op.outputDims fun m =>
    taps.foldl (fun sum tap =>
      match backOffset? op.dims m tap.1 0 with
      | some k => sum + tap.2 * x.entries.getD k 0
      | none => sum) 0

/-- Whether all windows of input extents lie inside an array, one for each kernel entry: along each
of its axes the array has at least the extent of the result. -/
def windowsFit : List Nat → List Nat → List Nat → Bool
  | y :: ys, n :: ns, k :: ks => n + k ≤ y + 1 && windowsFit ys ns ks
  | [], _, _ => true
  | _, _, _ => false

/-- The convolution of a signal; memory has to hold the result. -/
def forward [Scalar K R W] (op : Convolution K) (x : Signal K) : Except Error (Signal K) := do
  let x ← x.expectFlat "convolution"
  if Storable op.outputDims && windowsFit op.outputDims op.dims op.kernel.dims then
    let x ← orMisuse (x.stretch? op.dims)
    .ok (.flat (op.convolve x))
  else .error .misuse

/-- The adjoint on an array whose windows fit: each entry adds the conjugate kernel entries times
the entries that they reach.  Windows of fewer axes are stretched. -/
@[specialize] def correlate [Scalar K R W] (op : Convolution K) (y : Tensor K) : Tensor K :=
  let window := op.dims.take y.rank
  let taps := op.taps.map fun tap => (offset y.dims (tap.1.take y.rank), Scalar.conj tap.2)
  .ofFn op.dims fun idx =>
    let base := offset y.dims (Tensor.project window idx)
    taps.foldl (fun sum tap => sum + tap.2 * y.entries.getD (base + tap.1) 0) 0

/-- The adjoint of the convolution; memory has to hold the result. -/
def adjoint [Scalar K R W] (op : Convolution K) (y : Signal K) : Except Error (Signal K) := do
  let y ← y.expectFlat "convolution adjoint"
  if Storable op.dims && windowsFit y.dims op.dims op.kernel.dims &&
      stretches (op.dims.take y.rank) op.dims then
    .ok (.flat (op.correlate y))
  else .error .misuse

end Convolution

end OperatorSplitting
