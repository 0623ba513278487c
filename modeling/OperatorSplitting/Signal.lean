import OperatorSplitting.Tensor.Basic
import OperatorSplitting.Error
import OperatorSplitting.Scalar.Arithmetic

/-!
# Signals

A signal is one dense array, or an ordered list of dense arrays that is treated as one vector.
Elementwise operations need equal shapes and say so otherwise; sums run over the elements in order,
block after block, from left to right.
-/

namespace OperatorSplitting

open RealArithmetic Scalar Widening

/-- A flat or blocked array. -/
inductive Signal (α : Type) where
  | flat (t : Tensor α)
  | blocked (ts : List (Tensor α))

/-- An operation whose operands do not fit is a misuse. -/
def orMisuse {α : Type} : Option α → Except Error α
  | some a => .ok a
  | none => .error .misuse

namespace Signal

variable {α β γ : Type}

/-- The shape. -/
def shape : Signal α → Shape
  | .flat t => .flat t.dims
  | .blocked ts => .blocked (ts.map (·.dims))

/-- All elements are equal. -/
def replicate (s : Shape) (a : α) : Signal α :=
  match s with
  | .flat dims => .flat (.replicate dims a)
  | .blocked blocks => .blocked (blocks.map fun dims => .replicate dims a)

/-- All elements are zero. -/
def zeros [Zero α] (s : Shape) : Signal α := replicate s 0

@[simp] theorem shape_replicate (s : Shape) (a : α) : (replicate s a).shape = s := by
  cases s with
  | flat dims => rfl
  | blocked blocks => simp [replicate, shape, Tensor.replicate, Function.comp_def]

/-- All elements are equal; memory has to hold them. -/
def filled (s : Shape) (a : α) : Except Error (Signal α) :=
  if s.Storable then .ok (replicate s a) else .error .misuse

theorem shape_of_filled {s : Shape} {a : α} {x : Signal α} (h : filled s a = .ok x) :
    x.shape = s := by
  unfold filled at h
  split at h
  · cases h; exact shape_replicate s a
  · cases h

/-- A vector. -/
def ofArray (entries : Array α) : Signal α := .flat (.ofArray entries)

/-- The elements of some blocks. -/
def blockEntries : List (Tensor α) → Array α
  | [] => #[]
  | t :: ts => t.entries ++ blockEntries ts

/-- The elements in order. -/
def entries : Signal α → Array α
  | .flat t => t.entries
  | .blocked ts => blockEntries ts

/-- The number of elements. -/
def size (x : Signal α) : Nat := x.entries.size

theorem size_blockEntries (ts : List (Tensor α)) :
    (blockEntries ts).size = Shape.volumes (ts.map (·.dims)) := by
  induction ts with
  | nil => rfl
  | cons t ts ih => simp [blockEntries, Shape.volumes, ih, t.size_entries]

theorem size_shape (x : Signal α) : x.shape.size = x.size % countRange := by
  cases x with
  | flat t => simp [size, entries, shape, Shape.size, t.size_entries]
  | blocked ts => simp [size, entries, shape, Shape.size, size_blockEntries]

/-- Arrange elements in one array. -/
def ofDims (dims : List Nat) (values : Array α) : Except Error (Signal α) :=
  match Tensor.ofEntries? dims values with
  | some t => .ok (.flat t)
  | none => .error (.shapeMismatch "from_shape_vec" (.flat dims) (.vector values.size))

/-- Cut elements into blocks, starting at a position. -/
def cutBlocks (whole : Shape) (values : Array α) :
    List (List Nat) → Nat → Except Error (List (Tensor α))
  | [], _ => .ok []
  | dims :: rest, start =>
    let stop := start + volume dims % countRange
    match Tensor.ofEntries? dims (values.extract start stop) with
    | none => .error (.shapeMismatch "from_flat_vec" (.flat dims) whole)
    | some t => (cutBlocks whole values rest stop).map (t :: ·)

/-- Arrange elements in a shape; there have to be as many as the shape holds. -/
def ofEntries (s : Shape) (values : Array α) : Except Error (Signal α) :=
  if values.size = s.size then
    match s with
    | .flat dims => ofDims dims values
    | .blocked blocks => (cutBlocks s values blocks 0).map .blocked
  else .error (.shapeMismatch "from_flat_vec" (.vector s.size) (.vector values.size))

/-- Whether the signal has blocks. -/
def isBlocked (x : Signal α) : Bool := x.shape.isBlocked

/-- The single array of a flat signal. -/
def expectFlat (place : String) : Signal α → Except Error (Tensor α)
  | .flat t => .ok t
  | .blocked ts => .error (.type (.notFlat place (blocked ts).shape))

/-- Apply `f` to every element. -/
@[inline] def map (f : α → β) : Signal α → Signal β
  | .flat t => .flat (t.map f)
  | .blocked ts => .blocked (ts.map (Tensor.map f))

@[simp] theorem shape_map (f : α → β) (x : Signal α) : (x.map f).shape = x.shape := by
  cases x with
  | flat t => rfl
  | blocked ts => simp [map, shape, Tensor.map, Function.comp_def]

/-- Combine blocks pairwise. -/
@[specialize] def zipBlocks? (f : α → β → γ) :
    List (Tensor α) → List (Tensor β) → Option (List (Tensor γ))
  | [], [] => some []
  | x :: xs, y :: ys => do
    let t ← Tensor.zip? f x y
    let ts ← zipBlocks? f xs ys
    some (t :: ts)
  | _, _ => none

/-- Combine the elements of two signals of the same shape. -/
@[inline] def zipMap (place : String) (f : α → β → γ) (x : Signal α) (y : Signal β) :
    Except Error (Signal γ) :=
  let combined : Option (Signal γ) :=
    match x, y with
    | .flat s, .flat t => (Tensor.zip? f s t).map .flat
    | .blocked ss, .blocked ts => (zipBlocks? f ss ts).map .blocked
    | _, _ => none
  match combined with
  | some z => .ok z
  | none => .error (.shapeMismatch place x.shape y.shape)

/-- The sum of two signals. -/
@[specialize] def add [Add α] (x y : Signal α) : Except Error (Signal α) :=
  zipMap "array addition" (· + ·) x y

/-- The difference of two signals. -/
@[specialize] def sub [Sub α] (x y : Signal α) : Except Error (Signal α) :=
  zipMap "array subtraction" (· - ·) x y

/-- Every element times `s`. -/
@[specialize] def scaled [Mul α] (x : Signal α) (s : α) : Signal α := x.map (· * s)

/-- Every element with the opposite sign. -/
@[specialize] def neg [Neg α] (x : Signal α) : Signal α := x.map (- ·)

/-- A signal plus a multiple of another one. -/
@[specialize] def addScaled [Add α] [Mul α] (x : Signal α) (s : α) (y : Signal α) :
    Except Error (Signal α) :=
  zipMap "scaled addition" (fun a b => a + s * b) x y

section Scalars

variable {K R W : Type} [RealArithmetic R] [RealArithmetic W] [Widening R W] [Scalar K R W]

/-- The conjugate of every element. -/
@[specialize] def conj (x : Signal K) : Signal K := x.map Scalar.conj

/-- The inner product, conjugate in the first signal. -/
@[specialize] def vdot (x y : Signal K) : Except Error K :=
  if x.shape = y.shape then
    .ok (sumEntries id (Array.zipWith (fun a b => Scalar.conj a * b) x.entries y.entries))
  else .error (.shapeMismatch "inner product" x.shape y.shape)

/-- The sum of the squared moduli. -/
@[specialize] def normSqr (x : Signal K) : R := sumEntries modulusSqr x.entries

/-- The Euclidean norm. -/
def norm (x : Signal K) : R := sqrt x.normSqr

/-- Whether all elements are finite. -/
def allFinite (x : Signal K) : Bool := x.entries.all fun a => RealArithmetic.isFinite (modulus a)

/-- Whether every element is within an absolute and a relative distance of its partner. -/
def allClose (x y : Signal K) (rtol atol : W) : Bool :=
  x.shape = y.shape && (x.entries.zip y.entries).all fun p =>
    le (widen (modulus (p.1 - p.2))) (atol + rtol * widen (modulus p.2))

/-- Whether shapes and elements agree. -/
def equal (x y : Signal K) : Bool :=
  x.shape = y.shape && (x.entries.zip y.entries).all fun p => Scalar.beq p.1 p.2

end Scalars

end Signal

section Draws

variable {K R W : Type} [Scalar K R W]

/-- The next `n` elements of a stream of standard normal numbers, and the position after them. -/
def drawEntries (source : Nat → W) : Nat → Nat → List K × Nat
  | 0, k => ([], k)
  | n + 1, k =>
    let r : K × Nat := draw source k
    let rest := drawEntries source n r.2
    (r.1 :: rest.1, rest.2)

theorem length_drawEntries (source : Nat → W) (n k : Nat) :
    (drawEntries (K := K) source n k).1.length = n := by
  induction n generalizing k with
  | zero => rfl
  | succ n ih => simp [drawEntries, ih]

/-- An array of standard normal elements. -/
def Tensor.draw (source : Nat → W) (dims : List Nat) (k : Nat) : Tensor K × Nat :=
  let r := drawEntries (K := K) source (volume dims) k
  (⟨dims, r.1.toArray, by simp [r, length_drawEntries]⟩, r.2)

/-- Blocks of standard normal elements, drawn one after the other. -/
def Tensor.drawBlocks (source : Nat → W) : List (List Nat) → Nat → List (Tensor K) × Nat
  | [], k => ([], k)
  | dims :: rest, k =>
    let t := Tensor.draw (K := K) source dims k
    let ts := drawBlocks source rest t.2
    (t.1 :: ts.1, ts.2)

/-- A signal of standard normal elements, and the position after them; memory has to hold it. -/
def Signal.draw (source : Nat → W) (s : Shape) (k : Nat) : Except Error (Signal K × Nat) :=
  if s.Storable then
    match s with
    | .flat dims =>
      let r := Tensor.draw (K := K) source dims k
      .ok (.flat r.1, r.2)
    | .blocked blocks =>
      let r := Tensor.drawBlocks (K := K) source blocks k
      .ok (.blocked r.1, r.2)
  else .error .misuse

end Draws

end OperatorSplitting
