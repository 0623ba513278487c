import OperatorSplitting.Signal

/-!
# Dense matrices

A matrix is applied to a vector by inner products with its rows, each added from left to right to
zero and then multiplied by one.  In rounded complex arithmetic the last factor matters: it turns
the product of an infinity with its imaginary part zero into an undefined number.  The conjugate
transpose is a matrix of its own.
-/

namespace OperatorSplitting

/-- A matrix with its entries row by row. -/
structure DenseMatrix (K : Type) where
  rows : Nat
  cols : Nat
  entries : Array K
  size_entries : entries.size = rows * cols

namespace DenseMatrix

variable {K R W : Type}

/-- The matrix with the given entries. -/
def ofFn (rows cols : Nat) (f : Nat → Nat → K) : DenseMatrix K where
  rows := rows
  cols := cols
  entries := Array.ofFn fun k : Fin (rows * cols) => f (k / cols) (k % cols)
  size_entries := Array.size_ofFn

/-- The matrix with the given entries row by row, if their number fits. -/
def ofEntries? (rows cols : Nat) (entries : Array K) : Option (DenseMatrix K) :=
  if h : entries.size = rows * cols then
    if Addressable [rows, cols] then some ⟨rows, cols, entries, h⟩ else none
  else none

/-- The entry in row `i` and column `j`. -/
@[inline] def entry [Zero K] (m : DenseMatrix K) (i j : Nat) : K :=
  m.entries.getD (i * m.cols + j) 0

theorem entry_ofFn [Zero K] {rows cols i j : Nat} (f : Nat → Nat → K) (hi : i < rows)
    (hj : j < cols) : (ofFn rows cols f).entry i j = f i j := by
  have hlt : i * cols + j < rows * cols := by
    have := Nat.mul_le_mul_right cols hi
    rw [Nat.succ_mul] at this
    omega
  have hdiv : (i * cols + j) / cols = i := by
    rw [Nat.add_comm, Nat.add_mul_div_right _ _ (by omega), Nat.div_eq_of_lt hj, Nat.zero_add]
  have hmod : (i * cols + j) % cols = j := by
    rw [Nat.add_comm, Nat.add_mul_mod_self_right, Nat.mod_eq_of_lt hj]
  simp [entry, ofFn, hlt, hdiv, hmod]

/-- The product with a vector of as many elements as there are columns. -/
@[specialize] def mulVec [Zero K] [One K] [Add K] [Mul K] (m : DenseMatrix K) (x : Array K) :
    Array K :=
  Array.ofFn fun i : Fin m.rows => sumBelow (fun j => m.entry i j * x.getD j 0) m.cols * 1

/-- The product with a vector, if it has as many elements as there are columns and memory holds the
result. -/
@[specialize] def mulVec? [Zero K] [One K] [Add K] [Mul K] (m : DenseMatrix K) (x : Array K) :
    Option (Array K) :=
  if x.size = m.cols ∧ Storable [m.rows] then some (m.mulVec x) else none

/-- The conjugate transpose. -/
def conjTranspose [Scalar K R W] (m : DenseMatrix K) : DenseMatrix K :=
  ofFn m.cols m.rows fun i j => Scalar.conj (m.entry j i)

/-- The vector in a flat signal with one axis. -/
def vectorOf (place : String) (x : Signal K) : Except Error (Array K) := do
  let t ← x.expectFlat place
  if t.rank = 1 then .ok t.entries else .error (.type (.notVector place))

/-- The matrix as a map of signals. -/
def forward [Scalar K R W] (m : DenseMatrix K) (x : Signal K) : Except Error (Signal K) := do
  let v ← vectorOf "matrix operator" x
  let y ← orMisuse (m.mulVec? v)
  .ok (.ofArray y)

/-- The conjugate transpose as a map of signals. -/
def adjoint [Scalar K R W] (m : DenseMatrix K) (y : Signal K) : Except Error (Signal K) := do
  let v ← vectorOf "matrix operator adjoint" y
  let x ← orMisuse (m.conjTranspose.mulVec? v)
  .ok (.ofArray x)

end DenseMatrix

end OperatorSplitting
