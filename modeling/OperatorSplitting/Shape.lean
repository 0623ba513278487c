import OperatorSplitting.Tensor.Capacity

/-!
# Shapes

The shape of a signal is the list of extents of one array, or a list of such lists, one for each
block.  Two shapes are broadcast by aligning the last axes: missing leading axes are added and an
extent one is stretched.  Flat and blocked shapes never combine.
-/

namespace OperatorSplitting

/-- Why arrays cannot be laid out as one array. -/
inductive LayoutFault where
  | incompatible
  | overflow
deriving DecidableEq, Repr

/-- The wording of a layout fault. -/
def LayoutFault.message : LayoutFault → String
  | .incompatible => "ShapeError/IncompatibleShape: incompatible shapes"
  | .overflow => "ShapeError/Overflow: arithmetic overflow"

/-- The shape of a signal. -/
inductive Shape where
  | flat (dims : List Nat)
  | blocked (blocks : List (List Nat))
deriving DecidableEq, Repr

/-- The extent to which two extents can be stretched. -/
def mergeExtent (a b : Nat) : Option Nat :=
  if a = b then some a else if a = 1 then some b else if b = 1 then some a else none

/-- Broadcast two boxes whose extents are listed from the last axis on. -/
def mergeReversed : List Nat → List Nat → Option (List Nat)
  | [], bs => some bs
  | as, [] => some as
  | a :: as, b :: bs => do
    let d ← mergeExtent a b
    let ds ← mergeReversed as bs
    some (d :: ds)

/-- The least box to which two boxes can be stretched. -/
def broadcastDims (a b : List Nat) : Option (List Nat) :=
  (mergeReversed a.reverse b.reverse).map List.reverse

/-- Whether a box can be stretched to another one, with extents listed from the last axis on. -/
def stretchesReversed : List Nat → List Nat → Bool
  | [], _ => true
  | _ :: _, [] => false
  | a :: as, b :: bs => (a = b || a = 1) && stretchesReversed as bs

/-- Whether a box can be stretched to another one by adding leading axes and replacing extents
one. -/
def stretches (a b : List Nat) : Bool := stretchesReversed a.reverse b.reverse

/-- The extents between parentheses. -/
def dimsText : List Nat → String
  | [] => "()"
  | [n] => "(" ++ toString n ++ ",)"
  | dims => "(" ++ String.intercalate ", " (dims.map toString) ++ ")"

/-- The extents between brackets. -/
def dimsList (dims : List Nat) : String :=
  "[" ++ String.intercalate ", " (dims.map toString) ++ "]"

namespace Shape

/-- The shape of a vector. -/
def vector (n : Nat) : Shape := .flat [n]

/-- The number of elements of some blocks. -/
def volumes : List (List Nat) → Nat
  | [] => 0
  | dims :: rest => volume dims + volumes rest

/-- The number of elements, as a count. -/
def size : Shape → Nat
  | .flat dims => volume dims % countRange
  | .blocked blocks => volumes blocks % countRange

/-- Memory can be reserved for every array of the shape. -/
def Storable : Shape → Prop
  | .flat dims => OperatorSplitting.Storable dims
  | .blocked blocks => ∀ dims ∈ blocks, OperatorSplitting.Storable dims

instance decidableStorable : (s : Shape) → Decidable s.Storable
  | .flat dims => inferInstanceAs (Decidable (OperatorSplitting.Storable dims))
  | .blocked blocks => inferInstanceAs (Decidable (∀ dims ∈ blocks, OperatorSplitting.Storable dims))

/-- Whether the shape has blocks. -/
def isBlocked : Shape → Bool
  | .flat _ => false
  | .blocked _ => true

/-- The extents of a flat shape. -/
def dims? : Shape → Option (List Nat)
  | .flat dims => some dims
  | .blocked _ => none

/-- The blocks of a blocked shape. -/
def blocks? : Shape → Option (List (List Nat))
  | .flat _ => none
  | .blocked blocks => some blocks

/-- Broadcast block by block. -/
def mergeBlocks : List (List Nat) → List (List Nat) → Option (List (List Nat))
  | [], [] => some []
  | a :: as, b :: bs => do
    let d ← broadcastDims a b
    let ds ← mergeBlocks as bs
    some (d :: ds)
  | _, _ => none

/-- The least shape to which both shapes can be stretched. -/
def broadcast : Shape → Shape → Option Shape
  | .flat a, .flat b => (broadcastDims a b).map .flat
  | .blocked a, .blocked b => (mergeBlocks a b).map .blocked
  | _, _ => none

/-- The text of a shape. -/
def text : Shape → String
  | .flat dims => dimsText dims
  | .blocked blocks => "(" ++ String.intercalate ", " (blocks.map dimsText) ++ ")"

end Shape

example : broadcastDims [3, 1, 4] [5, 1] = some [3, 5, 4] := by decide

example : broadcastDims [2, 0] [2, 3] = none := by decide

end OperatorSplitting
